import Rayzor.Arrays.Runs

/-!
Contract: careful programs see lists.
-/

namespace Rayzor.Arrays

open Library

variable {box : Word → Nat → Word} {arrays : List HaxeArray} {lists : List (List Word)}
  {granted : Bool}

section Related

variable {α β : Type*} {relation : α → β → Prop} {firsts : List α} {seconds : List β}

theorem forall₂_lookup (related : List.Forall₂ relation firsts seconds) (position : Nat) :
    firsts[position]? = none ∧ seconds[position]? = none ∨
      ∃ first second, firsts[position]? = some first ∧ seconds[position]? = some second ∧
        relation first second := by
  induction related generalizing position with
  | nil => exact Or.inl ⟨rfl, rfl⟩
  | cons head tail ih =>
      cases position with
      | zero => exact Or.inr ⟨_, _, rfl, rfl, head⟩
      | succ position => exact ih position

theorem forall₂_set (related : List.Forall₂ relation firsts seconds) (position : Nat) {first : α}
    {second : β} (new : relation first second) :
    List.Forall₂ relation (firsts.set position first) (seconds.set position second) := by
  induction related generalizing position with
  | nil => exact .nil
  | cons head tail ih =>
      cases position with
      | zero => exact .cons new tail
      | succ position => exact .cons head (ih position)

theorem forall₂_concat (related : List.Forall₂ relation firsts seconds) {first : α} {second : β}
    (new : relation first second) :
    List.Forall₂ relation (firsts ++ [first]) (seconds ++ [second]) :=
  List.rel_append related (.cons new .nil)

end Related

/-- A call on arrays that hold lists is answered as the call on lists is. -/
def Simulates (granted : Bool) (specified : Reply → List (List Word) → Prop)
    (result : Except Trap (List HaxeArray × Reply)) : Prop :=
  Yields (Refused granted)
    (fun result => ∃ lists', specified result.2 lists' ∧ List.Forall₂ Holds result.1 lists') result

theorem change_simulates (related : List.Forall₂ Holds arrays lists) (handle : Nat) (null : Reply)
    {function : HaxeArray → Except Trap (HaxeArray × Reply)}
    {relation : List Word → Reply → List Word → Prop}
    (changes : ∀ array list, arrays[handle]? = some array → Holds array list →
      Yields (Refused granted)
        (fun result => ∃ list', relation list result.2 list' ∧ Holds result.1 list')
        (function array)) :
    Simulates granted (Changes lists handle null relation) (change arrays handle null function) := by
  rw [change]
  obtain ⟨noArray, noList⟩ | ⟨array, list, isArray, isList, holds⟩ := forall₂_lookup related handle
  · rw [noArray]
    refine ⟨lists, ?_, related⟩
    rw [Changes, noList]
    exact ⟨rfl, rfl⟩
  · rw [isArray]
    apply Yields.bind (changes array list isArray holds)
    intro result changed
    obtain ⟨list', relates, holds'⟩ := changed
    refine ⟨lists.set handle list', ?_, forall₂_set related handle holds'⟩
    rw [Changes, isList]
    exact ⟨list', relates, rfl⟩

/-- For functions without an answer -/
theorem silently_becomes {result : List Word → List Word} {list : List Word}
    {changed : Except Trap HaxeArray}
    (holds : Yields (Refused granted) (Holds · (result list)) changed) :
    Yields (Refused granted)
      (fun answer => ∃ list', Becomes result (fun _ => .nothing) list answer.2 list' ∧
        Holds answer.1 list') (silently changed) :=
  Yields.bind holds fun _ after => ⟨result list, ⟨rfl, rfl⟩, after⟩

/-- For functions that answer and need no memory -/
theorem answering_becomes {α : Type} {reply : α → Reply} {result : List Word → List Word}
    {answer : List Word → Reply} {list : List Word} {after : HaxeArray} {value : α}
    {changed : Except Trap (HaxeArray × α)} (computes : changed = .ok (after, value))
    (replies : reply value = answer list) (holds : Holds after (result list)) :
    Yields (Refused granted)
      (fun outcome => ∃ list', Becomes result answer list outcome.2 list' ∧ Holds outcome.1 list')
      (answering reply changed) := by
  rw [computes]
  exact ⟨result list, ⟨replies, rfl⟩, holds⟩

theorem answering_assigns {index value : Word} {list : List Word} {array : HaxeArray}
    (holds : Holds array list) (reach : CanReach array (index.toNat + 1)) :
    Yields (Refused granted)
      (fun outcome => ∃ list', Assigns granted index value list outcome.2 list' ∧
        Holds outcome.1 list') (answering .stored (setWith granted array index value)) := by
  obtain ⟨after, stored, computes, isSet⟩ := setWith_holds granted holds value reach
  rw [computes]
  cases stored with
  | true => exact ⟨_, Or.inl ⟨rfl, rfl⟩, isSet⟩
  | false =>
      refine ⟨list, Or.inr ⟨isSet.1, rfl, rfl⟩, ?_⟩
      show Holds after list
      rw [isSet.2]
      exact holds

theorem create_simulates (related : List.Forall₂ Holds arrays lists) {list : List Word}
    {created : Except Trap HaxeArray} (holds : Yields (Refused granted) (Holds · list) created) :
    Simulates granted (Creates lists list) (create arrays created) :=
  Yields.bind holds fun _ after => ⟨lists ++ [list], ⟨rfl, rfl⟩, forall₂_concat related after⟩

theorem createFrom_simulates (related : List.Forall₂ Holds arrays lists) (handle : Nat)
    {function : HaxeArray → Except Trap HaxeArray} {result : List Word → List Word}
    (holds : ∀ array list, Holds array list →
      Yields (Refused granted) (Holds · (result list)) (function array)) :
    Simulates granted (CreatesFrom lists handle result) (createFrom arrays handle function) := by
  rw [createFrom]
  obtain ⟨noArray, noList⟩ | ⟨array, list, isArray, isList, isHeld⟩ := forall₂_lookup related handle
  · rw [noArray]
    refine ⟨lists, ?_, related⟩
    rw [CreatesFrom, noList]
    exact ⟨rfl, rfl⟩
  · have simulates := create_simulates related (holds array list isHeld)
    unfold CreatesFrom
    rw [isArray, isList]
    exact simulates

theorem holdsMaybe_lookup (related : List.Forall₂ Holds arrays lists) (handle : Nat) :
    HoldsMaybe arrays[handle]? (lists[handle]?.getD []) := by
  obtain ⟨noArray, noList⟩ | ⟨array, list, isArray, isList, holds⟩ := forall₂_lookup related handle
  · rw [noArray, noList]
    rfl
  · rw [isArray, isList]
    exact holds

theorem exec_simulates (box : Word → Nat → Word) (related : List.Forall₂ Holds arrays lists) {call : Call}
    (careful : Careful arrays call) :
    Simulates call.granted (Specified lists call) (exec box arrays call) := by
  obtain ⟨action, granted⟩ := call
  cases action with
  | new => exact create_simulates related haxeArrayNew_holds
  | fromElements elements =>
      apply create_simulates related
      refine haxeArrayFromElements_holds ⟨fun _ => ⟨[], [], ?_, rfl, by decide⟩⟩ careful
      rw [List.nil_append, List.append_nil]
  | parsed => exact create_simulates related Holds.emptyArray
  | set handle index data =>
      exact change_simulates related handle _ fun array list isArray holds =>
        answering_assigns holds (careful array isArray)
  | setI64 handle index value =>
      exact change_simulates related handle _ fun array list isArray holds =>
        answering_assigns holds (careful array isArray)
  | setF64 handle index bits =>
      exact change_simulates related handle _ fun array list isArray holds =>
        answering_assigns holds (careful array isArray)
  | setNull handle index =>
      exact change_simulates related handle _ fun array list isArray holds =>
        answering_assigns holds (careful array isArray)
  | push handle data =>
      apply change_simulates related handle
      intro array list isArray holds
      apply silently_becomes
      cases data with
      | none =>
          rw [Option.toList_none, List.append_nil]
          exact holds
      | some value => exact haxeArrayPush_holds holds value (careful array isArray rfl)
  | pop handle wanted =>
      apply change_simulates related handle
      intro array list isArray holds
      obtain ⟨after, computes, holds'⟩ := haxeArrayPop_holds holds wanted
      exact answering_becomes computes rfl holds'
  | popI64 handle =>
      apply change_simulates related handle
      intro array list isArray holds
      obtain ⟨after, computes, holds'⟩ := haxeArrayPopI64_holds holds
      exact answering_becomes computes rfl holds'
  | insert handle index data =>
      apply change_simulates related handle
      intro array list isArray holds
      apply silently_becomes
      cases data with
      | none => exact holds
      | some value =>
          have room := careful array isArray rfl
          exact haxeArrayInsert_holds holds index value room.1 room.2
  | remove handle index =>
      apply change_simulates related handle
      intro array list isArray holds
      obtain ⟨after, computes, holds'⟩ := haxeArrayRemove_holds holds index
      exact answering_becomes computes rfl holds'
  | shift handle =>
      apply change_simulates related handle
      intro array list isArray holds
      obtain ⟨after, computes, holds'⟩ := haxeArrayShift_holds holds
      exact answering_becomes computes rfl holds'
  | unshift handle value =>
      exact change_simulates related handle _ fun array list isArray holds =>
        silently_becomes (haxeArrayUnshift_holds holds value (careful array isArray))
  | resize handle newLen =>
      exact change_simulates related handle _ fun array list isArray holds =>
        silently_becomes (haxeArrayResize_holds holds newLen (careful array isArray))
  | reverse handle =>
      apply change_simulates related handle
      intro array list isArray holds
      have scratch : array.len ≤ 1 ∨ granted = true := careful array isArray
      rw [holds.len_eq] at scratch
      obtain ⟨after, computes, holds'⟩ := haxeArrayReverse_holds holds scratch
      apply silently_becomes
      show Yields _ _ (haxeArrayReverse granted array)
      rw [computes]
      exact holds'
  | sort handle comparator =>
      apply change_simulates related handle
      intro array list isArray holds
      obtain ⟨after, sorted, computes, holds', sorts⟩ :=
        haxeArraySort_holds holds comparator.property
      show Yields _ _ (silently (haxeArraySort array comparator.val))
      rw [computes]
      exact ⟨sorted, ⟨rfl, sorts⟩, holds'⟩
  | copy handle =>
      exact createFrom_simulates related handle fun array list holds => haxeArrayCopy_holds holds
  | slice handle start stop =>
      exact createFrom_simulates related handle fun array list holds =>
        haxeArraySlice_holds holds start stop
  | splice handle pos len =>
      simp only [exec, Specified]
      obtain ⟨noArray, noList⟩ | ⟨array, list, isArray, isList, holds⟩ :=
        forall₂_lookup related handle
      · rw [noArray, noList]
        exact create_simulates related haxeArrayNew_holds
      · rw [isArray, isList]
        apply Yields.bind (haxeArraySplice_holds holds pos len)
        intro result spliced
        exact ⟨_, ⟨rfl, rfl⟩,
          forall₂_concat (forall₂_set related handle spliced.1) spliced.2⟩
  | concat first second =>
      have holdsFirst := holdsMaybe_lookup related first
      have holdsSecond := holdsMaybe_lookup related second
      have fits : (arrays[first]?.map HaxeArray.len).getD 0 +
          (arrays[second]?.map HaxeArray.len).getD 0 < maxCapacity := careful
      rw [holdsFirst.len_eq, holdsSecond.len_eq] at fits
      exact create_simulates related (haxeArrayConcat_holds box holdsFirst holdsSecond fits)

def AnyCall : List HaxeArray → Call → Prop := fun _ _ => True

variable {array : HaxeArray} {list : List Word}

/-- The other functions that grow an array allocate its first buffer; an insertion enlarges
one that is not there. -/
theorem insert_undefined (holds : Holds array list) (noBuffer : array.cap = 0) (index : Int32)
    (value : Word) : haxeArrayInsert granted array index (some value) = .error .undefined := by
  have bounded := holds.len_le
  have enlarges (ptr : Pointer) (newSize : Nat) :
      realloc granted ptr (bytes 0) newSize = .error .undefined := by
    cases ptr with
    | none => rfl
    | some slots =>
        rw [realloc]
        exact if_pos (Or.inl rfl)
  have grows : reserveByRealloc granted array = .error .undefined := by
    rw [reserveByRealloc, if_pos (by omega), noBuffer]
    dsimp only
    rw [enlarges]
    rfl
  rw [haxeArrayInsert, grows]
  rfl

def lastIndex : Word := 18446744073709551615

theorem toNat_lastIndex : lastIndex.toNat = 2 ^ 64 - 1 := rfl

/-- With the index minus one the length that is asked for wraps to zero, nothing grows, and
the element is stored in front of the buffer. -/
theorem set_undefined (holds : Holds array list) (value : Word) :
    setWith granted array lastIndex value = .error .undefined := by
  have fits := holds.fits
  have room := holds.room
  have wraps : wrapping (2 ^ 64 - 1 + 1) = 0 := by norm_num [wrapping]
  rw [setWith, toNat_lastIndex, wraps, expand, if_neg (Nat.not_lt_zero _)]
  show (store array.ptr _ _ >>= _) = _
  have position : bytes (2 ^ 64 - 1) / elemSize = 2 ^ 61 - 1 := by
    norm_num [bytes, wrapping, elemSize]
  have outside : store array.ptr (bytes (2 ^ 64 - 1)) value = .error .undefined := by
    rw [store, access]
    cases isPtr : array.ptr with
    | none => rfl
    | some slots =>
        simp only [HaxeArray.slots, isPtr, Option.getD_some] at room
        simp only [maxCapacity] at fits
        have past : ¬ bytes (2 ^ 64 - 1) / elemSize < slots.length := by
          rw [position]
          omega
        rw [Option.bind_some, Slots.store, if_neg past]
        rfl
  rw [outside]
  rfl

/-- The index minus two -/
def lastButOneIndex : Word := 18446744073709551614

theorem toNat_lastButOneIndex : lastButOneIndex.toNat = 2 ^ 64 - 2 := rfl

/-- With the index minus two the capacity is doubled for ever. -/
theorem set_endless (holds : Holds array list) (value : Word) :
    setWith granted array lastButOneIndex value = .error .endless := by
  have fits := holds.fits
  have bounded := holds.len_le
  simp only [maxCapacity] at fits
  have wraps : wrapping (2 ^ 64 - 2 + 1) = 2 ^ 64 - 1 := by norm_num [wrapping]
  have start : startingCapacity array.cap < 2 ^ 60 := by
    rw [startingCapacity]
    split_ifs
    · decide
    · exact fits
  have never : doubleUntil (2 ^ 64 - 1) 65 (startingCapacity array.cap) = .error .endless := by
    apply (doubleUntil_endless (by omega)).mpr
    intro doublings
    cases doublings with
    | zero =>
        rw [pow_zero, Nat.mul_one, wrapping_of_lt (by simp only [maxCapacity]; omega)]
        omega
    | succ doublings =>
        have even : startingCapacity array.cap * 2 ^ (doublings + 1) =
            2 * (startingCapacity array.cap * 2 ^ doublings) := by ring
        rw [wrapping, even]
        omega
  rw [setWith, toNat_lastButOneIndex, wraps, expand, if_pos (by omega), ensureCapacity, if_pos (by omega), never]
  rfl

end Rayzor.Arrays
