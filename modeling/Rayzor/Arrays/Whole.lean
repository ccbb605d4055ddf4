import Rayzor.Library.StableSort
import Rayzor.Arrays.Lists

/-!
Contract: the functions that make arrays out of arrays, and those that rearrange one.
-/

namespace Rayzor.Arrays

open Library

variable {granted : Bool} {array : HaxeArray} {list : List Word}

theorem haxeArrayNew_holds : Yields (Refused granted) (Holds · []) (haxeArrayNew granted) := by
  rw [haxeArrayNew, alloc_bytes (by decide) (by decide)]
  cases granted with
  | false => exact ⟨rfl, rfl⟩
  | true =>
      apply Holds.of_ptr (List.replicate initialCapacity none) rfl rfl
      · rfl
      · decide
      · rfl

structure PointsAt (elements : Pointer) (start : Nat) (list : List Word) : Prop where
  found : list ≠ [] → ∃ before after, elements = some (before ++ list.map some ++ after) ∧
    start = bytes before.length ∧ before.length < maxCapacity

theorem Holds.pointsAt (holds : Holds array list) {before taken after : List Word}
    (split : list = before ++ taken ++ after) :
    PointsAt array.ptr (bytes before.length) taken where
  found nonempty := by
    have len := holds.len_eq
    have bounded := holds.len_le
    have fits := holds.fits
    have positive : 0 < taken.length := List.length_pos_iff.mpr nonempty
    have lengths := congrArg List.length split
    simp only [List.length_append] at lengths
    obtain ⟨spare, ptr, cap⟩ := holds.ptr_eq (by omega)
    refine ⟨before.map some, after.map some ++ spare, ?_, by rw [List.length_map], by
      rw [List.length_map]; omega⟩
    rw [ptr, split]
    simp

theorem haxeArrayFromElements_holds {elements : Pointer} {start : Nat}
    (pointsAt : PointsAt elements start list) (fits : list.length < maxCapacity) :
    Yields (Refused granted) (Holds · list)
      (haxeArrayFromElements granted elements start list.length) := by
  rw [haxeArrayFromElements]
  by_cases empty : list.length = 0
  · rw [if_pos empty, List.eq_nil_of_length_eq_zero empty]
    exact haxeArrayNew_holds
  · obtain ⟨before, after, isElements, isStart, beforeFits⟩ :=
      pointsAt.found (fun isNil => empty (by rw [isNil]; rfl))
    have capFits : max list.length initialCapacity < maxCapacity := by
      rw [Nat.max_lt]
      exact ⟨fits, by decide⟩
    have capPositive : 0 < max list.length initialCapacity := by omega
    rw [if_neg empty]
    dsimp only
    rw [alloc_bytes capPositive capFits]
    cases granted with
    | false => exact ⟨rfl, rfl⟩
    | true =>
        have copies := @Slots.copy_append Word []
          (List.replicate list.length none)
          (List.replicate (max list.length initialCapacity - list.length) none)
          before (list.map some) after (by simp)
        have blank : List.replicate (max list.length initialCapacity) (none : Option Word) =
            [] ++ List.replicate list.length none ++
              List.replicate (max list.length initialCapacity - list.length) none := by
          rw [List.nil_append, ← List.replicate_add]
          congr 1
          omega
        rw [List.length_map, ← blank] at copies
        have copied := copy_bytes (by decide) beforeFits fits copies
        show Yields _ _ (copy _ _ _ _ _ >>= _)
        rw [isElements, isStart, show (0 : Nat) = bytes ([] : Slots Word).length from rfl, copied]
        refine Holds.of_ptr (List.replicate
          (max list.length initialCapacity - list.length) none) ?_ rfl ?_ capFits rfl
        · simp
        · show max list.length initialCapacity = _
          rw [List.length_replicate]
          omega

theorem Holds.withFlags (holds : Holds array list) {flags : Nat} (unflagged : flags = 0) :
    Holds { array with flags := withoutView flags } list where
  len_le := holds.len_le
  room := holds.room
  contents := holds.contents
  fits := holds.fits
  unflagged := by rw [unflagged]; rfl

theorem haxeArrayCopy_holds (holds : Holds array list) :
    Yields (Refused granted) (Holds · list) (haxeArrayCopy granted array) := by
  have len := holds.len_eq
  have bounded := holds.len_le
  have fits := holds.fits
  rw [haxeArrayCopy, len]
  have pointsAt : PointsAt array.ptr 0 list := @Holds.pointsAt array list holds [] list [] (by simp)
  apply Yields.bind (haxeArrayFromElements_holds pointsAt (by omega))
  intro out outHolds
  exact outHolds.withFlags holds.unflagged

theorem haxeArraySlice_holds (holds : Holds array list) (start stop : Word) :
    Yields (Refused granted) (Holds · ((list.take stop.toNat).drop start.toNat))
      (haxeArraySlice granted array start stop) := by
  have len := holds.len_eq
  have bounded := holds.len_le
  have fits := holds.fits
  rw [haxeArraySlice]
  dsimp only
  by_cases empty : min stop.toNat array.len ≤ min start.toNat array.len
  · have nothing : (list.take stop.toNat).drop start.toNat = [] := by
      apply List.drop_eq_nil_of_le
      rw [List.length_take]
      omega
    rw [if_pos empty, nothing]
    apply Yields.bind haxeArrayNew_holds
    intro out outHolds
    exact outHolds.withFlags holds.unflagged
  · have within : start.toNat < list.length := by omega
    have split : list = list.take start.toNat ++ (list.take stop.toNat).drop start.toNat ++
        list.drop stop.toNat := by
      have prefixTaken : list.take start.toNat = (list.take stop.toNat).take start.toNat := by
        rw [List.take_take, Nat.min_eq_left (by omega)]
      rw [prefixTaken, List.take_append_drop, List.take_append_drop]
    have front : (list.take start.toNat).length = min start.toNat array.len := by
      rw [List.length_take, len]
    have count : ((list.take stop.toNat).drop start.toNat).length =
        min stop.toNat array.len - min start.toNat array.len := by
      rw [List.length_drop, List.length_take]
      omega
    have pointsAt := holds.pointsAt split
    rw [front] at pointsAt
    rw [if_neg empty, ← count]
    apply Yields.bind (haxeArrayFromElements_holds pointsAt (by omega))
    intro out outHolds
    exact outHolds.withFlags holds.unflagged

theorem asI64_of_lt {value : Int} (above : -(2 ^ 63) ≤ value) (below : value < 2 ^ 63) :
    asI64 value = value := by
  apply Int.bmod_eq_of_le <;> omega

theorem haxeArraySplice_holds (holds : Holds array list) (pos len : Int64) :
    Yields (Refused granted)
      (fun result => Holds result.1 (spliceKept list pos.toInt len.toInt) ∧
        Holds result.2 (spliceRemoved list pos.toInt len.toInt))
      (haxeArraySplice granted array pos len) := by
  have isLen := holds.len_eq
  have bounded := holds.len_le
  have fits := holds.fits
  have small : (array.len : Int) < 2 ^ 60 := by
    have isSmall : array.len < 2 ^ 60 := by simp only [maxCapacity] at fits; omega
    exact_mod_cast isSmall
  have lower := Int64.le_toInt pos
  have position : (if pos.toInt < 0 then (max (asI64 (asI64 array.len + pos.toInt)) 0).toNat
      else min pos.toInt.toNat array.len) = spliceStart list pos.toInt := by
    rw [spliceStart, isLen]
    split_ifs with negative
    · have sameLen : asI64 (list.length : Int) = list.length := asI64_of_lt (by omega) (by omega)
      rw [sameLen, asI64_of_lt (by omega) (by omega)]
      omega
    · rfl
  rw [haxeArraySplice]
  dsimp only
  rw [position, spliceKept, spliceRemoved]
  generalize spliceStart list pos.toInt = actualPos
  by_cases nothing : len.toInt ≤ 0 ∨ array.len ≤ actualPos
  · rw [if_pos nothing]
    have kept : list.take actualPos ++ list.drop (actualPos + len.toInt.toNat) = list := by
      obtain noCount | past := nothing
      · rw [Int.toNat_of_nonpos noCount, Nat.add_zero, List.take_append_drop]
      · rw [List.take_of_length_le (by omega), List.drop_of_length_le (by omega), List.append_nil]
    have removed : (list.drop actualPos).take len.toInt.toNat = [] := by
      obtain noCount | past := nothing
      · rw [Int.toNat_of_nonpos noCount, List.take_zero]
      · rw [List.drop_of_length_le (by omega), List.take_nil]
    rw [kept, removed]
    apply Yields.bind haxeArrayNew_holds
    intro out outHolds
    exact ⟨holds, outHolds.withFlags holds.unflagged⟩
  · rw [if_neg nothing]
    generalize count : min len.toInt.toNat (array.len - actualPos) = actualLen
    have removedLength : ((list.drop actualPos).take len.toInt.toNat).length = actualLen := by
      rw [List.length_take, List.length_drop]
      omega
    have split : list = list.take actualPos ++ (list.drop actualPos).take len.toInt.toNat ++
        list.drop (actualPos + len.toInt.toNat) := by
      rw [List.append_assoc, ← List.drop_drop, List.take_append_drop, List.take_append_drop]
    have front : (list.take actualPos).length = actualPos := by
      rw [List.length_take]
      omega
    have rest : (list.drop (actualPos + len.toInt.toNat)).length =
        array.len - actualPos - actualLen := by
      rw [List.length_drop]
      omega
    have pointsAt := holds.pointsAt split
    rw [front] at pointsAt
    rw [← removedLength]
    apply Yields.bind (haxeArrayFromElements_holds pointsAt (by omega))
    intro out outHolds
    rw [split] at holds
    obtain ⟨ptr, copies, after⟩ := closeGap_holds holds
      (decide (0 < array.len - actualPos - actualLen)) (by rw [decide_eq_true_iff]; omega)
    rw [front, rest, removedLength] at copies
    rw [front, rest] at after
    rw [removedLength, copies]
    rw [show actualPos + (array.len - actualPos - actualLen) = array.len - actualLen by omega]
      at after
    exact ⟨after, outHolds.withFlags holds.unflagged⟩

/-- A null array stands for no elements. -/
def HoldsMaybe (array : Option HaxeArray) (list : List Word) : Prop :=
  match array with
  | none => list = []
  | some array => Holds array list

namespace HoldsMaybe

variable {array : Option HaxeArray}

theorem len_eq (holds : HoldsMaybe array list) :
    (array.map HaxeArray.len).getD 0 = list.length := by
  cases array with
  | none => rw [show list = [] from holds]; rfl
  | some array => exact Holds.len_eq holds

theorem flags_eq (holds : HoldsMaybe array list) :
    (array.map fun array => withoutView array.flags).getD 0 = 0 := by
  cases array with
  | none => rfl
  | some array =>
      show withoutView array.flags = 0
      rw [Holds.unflagged holds]
      rfl

/-- The elements of the array are copied behind those that are there already. -/
theorem copied (holds : HoldsMaybe array list) (front : Slots Word) (room : Nat)
    (enough : list.length ≤ room) (fits : front.length + list.length < maxCapacity) :
    copyFromWhen (0 < list.length ∧ array.bind HaxeArray.ptr ≠ none)
        (some (front ++ List.replicate room none)) (bytes front.length)
        (array.bind HaxeArray.ptr) (bytes list.length) =
      .ok (some (front ++ list.map some ++ List.replicate (room - list.length) none)) := by
  by_cases empty : list.length = 0
  · rw [copyFromWhen, if_neg (by simp [empty]), List.eq_nil_of_length_eq_zero empty]
    simp
    rfl
  · cases array with
    | none => exact absurd (congrArg List.length holds) empty
    | some array =>
        obtain ⟨spare, ptr, cap⟩ := Holds.ptr_eq holds (by
          have len := Holds.len_eq holds
          have bounded := Holds.len_le holds
          omega)
        have blank : List.replicate room (none : Option Word) =
            List.replicate list.length none ++ List.replicate (room - list.length) none := by
          rw [← List.replicate_add]
          congr 1
          omega
        have copies := @Slots.copy_append Word front (List.replicate list.length none)
          (List.replicate (room - list.length) none) [] (list.map some) spare (by simp)
        rw [List.length_map, List.append_assoc front, ← blank] at copies
        show copyFromWhen _ _ _ array.ptr _ = _
        rw [copyFromWhen, if_pos (by simp [ptr]; omega), ptr]
        exact copy_bytes (by omega) (by decide) (by omega) copies

end HoldsMaybe

theorem haxeArrayConcat_holds {array other : Option HaxeArray} {list' : List Word}
    (box : Word → Nat → Word) (holds : HoldsMaybe array list) (holds' : HoldsMaybe other list')
    (fits : list.length + list'.length < maxCapacity) :
    Yields (Refused granted) (Holds · (list ++ list'))
      (haxeArrayConcat box granted array other) := by
  have capPositive : 0 < max (list.length + list'.length) initialCapacity :=
    lt_max_of_lt_right (by decide)
  have capFits : max (list.length + list'.length) initialCapacity < maxCapacity := by
    rw [Nat.max_lt]
    exact ⟨fits, by decide⟩
  rw [haxeArrayConcat]
  dsimp only
  rw [holds.len_eq, holds'.len_eq, wrapping_of_lt fits.le, alloc_bytes capPositive capFits]
  generalize capacity : max (list.length + list'.length) initialCapacity = cap at *
  cases granted with
  | false => exact ⟨rfl, rfl⟩
  | true =>
      have first := holds.copied [] cap (by omega)
        (by rw [List.length_nil]; omega)
      have second := holds'.copied (list.map some) (cap - list.length) (by omega)
        (by rw [List.length_map]; omega)
      rw [List.length_map] at second
      simp only [List.nil_append] at first
      show Yields _ _ (copyFromWhen _ _ (bytes ([] : Slots Word).length) _ _ >>= _)
      rw [first]
      show Yields _ _ (copyFromWhen _ _ _ _ _ >>= _)
      rw [second, holds.flags_eq, holds'.flags_eq]
      show Yields _ _ (if _ then _ else _)
      rw [if_neg (by simp)]
      refine Holds.of_ptr (List.replicate (cap - list.length - list'.length) none) ?_ ?_
        ?_ capFits ?_
      · rw [List.map_append]
      · rw [List.length_append]
      · show cap = _
        rw [List.length_append, List.length_replicate]
        omega
      · show (if list.length = 0 then 0 else 0) = 0
        rw [ite_self]

theorem reverseBetween_append (middle : Slots Word) :
    ∀ front back : Slots Word, front.length + middle.length < maxCapacity →
      reverseBetween (some (front ++ middle ++ back)) front.length
          (front.length + middle.length - 1) =
        .ok (some (front ++ middle.reverse ++ back)) := by
  induction middle using List.bidirectionalRec with
  | nil =>
      intro front back fits
      rw [reverseBetween, if_neg (by rw [List.length_nil]; omega)]
      rfl
  | singleton element =>
      intro front back fits
      rw [reverseBetween, if_neg (by rw [List.length_singleton]; omega)]
      rfl
  | cons_append first middle last ih =>
      intro front back fits
      simp only [List.length_cons, List.length_append, List.length_nil] at fits
      have inner := ih (front ++ [last]) (first :: back) (by
        rw [List.length_append, List.length_singleton]
        omega)
      have split : front ++ first :: (middle ++ [last]) ++ back =
          front ++ first :: middle ++ last :: back := by simp
      have outer : front.length + (first :: (middle ++ [last])).length - 1 =
          front.length + 1 + middle.length := by
        simp only [List.length_cons, List.length_append, List.length_nil]
        omega
      rw [List.length_append, List.length_singleton] at inner
      rw [reverseBetween, outer, if_pos (by omega), split, bytes_div (by omega),
        bytes_div (by omega), access, Option.bind_some, Slots.swap_append]
      show reverseBetween (some (front ++ last :: middle ++ first :: back)) _ _ = _
      have same : front ++ last :: middle ++ first :: back =
          front ++ [last] ++ middle ++ first :: back := by simp
      rw [same, inner]
      simp

theorem haxeArrayReverse_holds (holds : Holds array list)
    (scratch : list.length ≤ 1 ∨ granted = true) :
    ∃ after, haxeArrayReverse granted array = .ok after ∧ Holds after list.reverse := by
  have len := holds.len_eq
  have bounded := holds.len_le
  have fits := holds.fits
  rw [haxeArrayReverse]
  by_cases short : array.len ≤ 1
  · have same : list.reverse = list := by
      match list, len with
      | [], _ => rfl
      | [element], _ => rfl
      | _ :: _ :: _, tooLong => simp only [List.length_cons] at tooLong; omega
    rw [if_pos short, same]
    exact ⟨array, rfl, holds⟩
  · obtain isShort | isGranted := scratch
    · omega
    obtain ⟨spare, ptr, cap⟩ := holds.ptr_eq (by omega)
    have reversed := reverseBetween_append (list.map some) [] spare
      (by rw [List.length_map, List.length_nil]; omega)
    rw [List.nil_append, List.length_nil, List.length_map, Nat.zero_add, ← len] at reversed
    refine ⟨{ array with ptr := some ([] ++ (list.map some).reverse ++ spare) }, ?_, ?_⟩
    · rw [if_neg short, isGranted, ptr]
      show (reverseBetween _ _ _ >>= _) = _
      rw [reversed]
      rfl
    · refine Holds.of_ptr spare ?_ ?_ ?_ fits holds.unflagged
      · rw [List.nil_append, List.map_reverse]
      · rw [List.length_reverse]
        exact len
      · rw [List.length_reverse]
        exact cap

theorem shiftAbove_append (compare : Word → Word → Int) (key : Word) (left : List Word) :
    ∀ (hole : Option Word) (right : Slots Word), left.length + 1 < maxCapacity →
      ∃ hole', shiftAbove compare key left.length (some (left.map some ++ hole :: right)) =
        .ok (some ((upTo compare key left).map some ++
          hole' :: ((above compare key left).map some ++ right)),
          (upTo compare key left).length) := by
  induction left using List.reverseRecOn with
  | nil => exact fun hole right fits => ⟨hole, rfl⟩
  | append_singleton left value ih =>
      intro hole right fits
      rw [List.length_append, List.length_singleton] at fits ⊢
      have read := load_bytes (left.map some) (hole :: right) value
        (by rw [List.length_map]; omega)
      rw [List.length_map] at read
      have shape : (left ++ [value]).map some ++ hole :: right =
          left.map some ++ some value :: hole :: right := by simp
      rw [shiftAbove, shape, read]
      show ∃ hole', (if 0 < compare value key then _ else _) = _
      by_cases isAbove : 0 < compare value key
      · have stored := store_bytes (left.map some ++ [some value]) right hole
          value (by simp; omega)
        rw [List.length_append, List.length_map, List.length_singleton] at stored
        simp only [List.append_assoc, List.singleton_append] at stored
        obtain ⟨hole', shifted⟩ := ih (some value) (some value :: right) (by omega)
        refine ⟨hole', ?_⟩
        rw [if_pos isAbove, stored]
        show shiftAbove _ _ _ _ = _
        rw [shifted, upTo, upTo, above, above, List.rdropWhile_concat_pos _ _ _ (by simpa using isAbove),
          List.rtakeWhile_concat_pos _ _ _ (by simpa using isAbove)]
        simp
      · refine ⟨hole, ?_⟩
        rw [if_neg isAbove, upTo, above, List.rdropWhile_concat_neg _ _ _ (by simpa using isAbove),
          List.rtakeWhile_concat_neg _ _ _ (by simpa using isAbove)]
        simp
        rfl

/-- The outer loop keeps a stable sorting of the elements it has passed. -/
theorem sortFrom_append {compare : Word → Word → Int} (consistent : Consistent compare)
    (spare : Slots Word) (rest : List Word) :
    ∀ seen sorted : List Word, StablySorts compare seen sorted →
      sorted.length + rest.length < maxCapacity →
      ∃ final, sortFrom compare rest.length sorted.length
          (some ((sorted ++ rest).map some ++ spare)) = .ok (some (final.map some ++ spare)) ∧
        StablySorts compare (seen ++ rest) final := by
  induction rest with
  | nil =>
      intro seen sorted sorts fits
      refine ⟨sorted, ?_, by rw [List.append_nil]; exact sorts⟩
      rw [List.append_nil]
      rfl
  | cons key rest ih =>
      intro seen sorted sorts fits
      rw [List.length_cons] at fits
      have read := load_bytes (sorted.map some) (rest.map some ++ spare) key
        (by rw [List.length_map]; omega)
      rw [List.length_map] at read
      have shape : (sorted ++ key :: rest).map some ++ spare =
          sorted.map some ++ some key :: (rest.map some ++ spare) := by simp
      obtain ⟨hole, shifted⟩ := shiftAbove_append compare key sorted (some key)
        (rest.map some ++ spare) (by omega)
      have places := congrArg List.length (upTo_append_above compare key sorted)
      rw [List.length_append] at places
      have stored := store_bytes ((upTo compare key sorted).map some)
        ((above compare key sorted).map some ++ (rest.map some ++ spare)) hole key
        (by rw [List.length_map]; omega)
      rw [List.length_map] at stored
      have inserted := consistent.insertRight_sorts key sorts
      obtain ⟨final, rested, finalSorts⟩ := ih (seen ++ [key])
        (insertRight compare key sorted) inserted (by rw [length_insertRight]; omega)
      refine ⟨final, ?_, by rw [List.append_cons]; exact finalSorts⟩
      rw [List.length_cons, sortFrom, shape, read]
      show (shiftAbove _ _ _ _ >>= _) = _
      rw [shifted]
      show (store _ _ _ >>= _) = _
      rw [stored]
      show sortFrom _ _ _ _ = _
      rw [length_insertRight] at rested
      rw [← rested, insertRight]
      simp

theorem haxeArraySort_holds (holds : Holds array list) {comparator : Comparator}
    (consistent : Consistent comparator.typed) :
    ∃ after sorted, haxeArraySort array comparator = .ok after ∧ Holds after sorted ∧
      StablySorts comparator.typed list sorted := by
  have len := holds.len_eq
  have bounded := holds.len_le
  have fits := holds.fits
  have entry : comparator.entryFor array.flags = comparator.typed := by
    rw [Comparator.entryFor, holds.unflagged]
    cases comparator.boxed <;> rfl
  rw [haxeArraySort, entry]
  cases list with
  | nil =>
      rw [if_pos (by rw [len]; exact Nat.zero_le 1)]
      exact ⟨array, [], rfl, holds, .nil⟩
  | cons first rest =>
      rw [List.length_cons] at len
      by_cases short : array.len ≤ 1
      · have noRest : rest = [] := List.eq_nil_of_length_eq_zero (by omega)
        rw [if_pos short]
        subst noRest
        exact ⟨array, [first], rfl, holds, .singleton first⟩
      · obtain ⟨spare, ptr, cap⟩ := holds.ptr_eq (by omega)
        rw [List.length_cons] at cap
        obtain ⟨final, sortedTo, sorts⟩ := sortFrom_append consistent spare rest [first] [first]
          (.singleton first) (by rw [List.length_singleton]; omega)
        rw [List.length_singleton, List.singleton_append] at sortedTo
        have finalLength := sorts.rearranged.length_eq
        rw [List.length_append, List.length_singleton] at finalLength
        refine ⟨{ array with ptr := some (final.map some ++ spare) }, final, ?_, ?_, sorts⟩
        · rw [if_neg short, show array.len - 1 = rest.length by omega, ptr, sortedTo]
          rfl
        · refine Holds.of_ptr _ rfl ?_ ?_ fits holds.unflagged
          · show array.len = _
            omega
          · show array.cap = _
            omega

end Rayzor.Arrays
