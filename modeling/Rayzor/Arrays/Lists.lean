import Rayzor.Library.Outcome
import Rayzor.Arrays.HaxeArray

/-!
Contract: the functions on arrays are the functions on lists.
-/

namespace Rayzor.Arrays

open Library

/-- Fewer slots than this have a layout. -/
def maxCapacity : Nat := 2 ^ 60

def HaxeArray.slots (array : HaxeArray) : Slots Word := array.ptr.getD []

/-- The array holds the list: its buffer has the size the header says, and starts with the
elements. -/
structure Holds (array : HaxeArray) (list : List Word) : Prop where
  len_le : array.len ≤ array.cap
  room : array.slots.length = array.cap
  contents : array.slots.take array.len = list.map some
  fits : array.cap < maxCapacity
  unflagged : array.flags = 0

/-- Doubling the capacity of the array, or that of a new one, passes `needed` while it has a
layout. -/
def CanReach (array : HaxeArray) (needed : Nat) : Prop :=
  needed ≤ array.cap ∨ ∃ doublings, needed ≤ startingCapacity array.cap * 2 ^ doublings ∧
    startingCapacity array.cap * 2 ^ doublings < maxCapacity

/-- There is room for one more element, or twice the capacity has a layout. -/
def CanDouble (array : HaxeArray) : Prop :=
  array.len < array.cap ∨ 2 * array.cap < maxCapacity

def Refused (granted : Bool) (trap : Trap) : Prop := trap = .panicked ∧ granted = false

variable {granted : Bool} {array : HaxeArray} {list : List Word}

/-! ### Sizes -/

theorem wrapping_of_lt {value : Nat} (small : value ≤ maxCapacity) : wrapping value = value := by
  rw [wrapping, Nat.mod_eq_of_lt]
  simp only [maxCapacity] at small
  omega

theorem bytes_of_lt {count : Nat} (small : count < maxCapacity) : bytes count = count * 8 := by
  rw [bytes, wrapping, elemSize, Nat.mod_eq_of_lt]
  simp only [maxCapacity] at small
  omega

@[simp] theorem bytes_div {count : Nat} (small : count < maxCapacity) :
    bytes count / elemSize = count := by
  rw [bytes_of_lt small, elemSize, Nat.mul_div_cancel _ (by decide)]

theorem bytes_laidOut {count : Nat} (positive : 0 < count) (small : count < maxCapacity) :
    ¬ (bytes count = 0 ∨ maxSize < bytes count) := by
  rw [bytes_of_lt small]
  simp only [maxCapacity] at small
  simp only [maxSize]
  omega

/-! ### Memory -/

variable {front back : Slots Word}

theorem load_bytes (front back : Slots Word) (value : Word) (small : front.length < maxCapacity) :
    load (some (front ++ some value :: back)) (bytes front.length) = .ok value := by
  rw [load, access, Option.bind_some, bytes_div small, Slots.load_append]

theorem store_bytes (front back : Slots Word) (old : Option Word) (value : Word) (small : front.length < maxCapacity) :
    store (some (front ++ old :: back)) (bytes front.length) value =
      .ok (some (front ++ some value :: back)) := by
  rw [store, access, Option.bind_some, bytes_div small, Slots.store_append]
  rfl

theorem writeZeros_bytes {middle : Slots Word} (small : front.length < maxCapacity)
    (smallCount : middle.length < maxCapacity) :
    writeZeros (some (front ++ middle ++ back)) (bytes front.length) (bytes middle.length) =
      .ok (some (front ++ List.replicate middle.length (some 0) ++ back)) := by
  rw [writeZeros, access, Option.bind_some, bytes_div small, bytes_div smallCount,
    Slots.fill_append]
  rfl

theorem copy_bytes {target source copied : Slots Word} {offset start count : Nat}
    (smallOffset : offset < maxCapacity) (smallStart : start < maxCapacity)
    (smallCount : count < maxCapacity)
    (copies : target.copy offset source start count = some copied) :
    copy (some target) (bytes offset) (some source) (bytes start) (bytes count) =
      .ok (some copied) := by
  simp only [copy, access, Option.bind_some, bytes_div smallOffset, bytes_div smallStart,
    bytes_div smallCount, copies]
  rfl

theorem alloc_bytes {count : Nat} (positive : 0 < count) (small : count < maxCapacity) :
    alloc granted (bytes count) =
      .ok (if granted then some (List.replicate count none) else none) := by
  rw [alloc, if_neg (bytes_laidOut positive small), bytes_div small]

theorem realloc_bytes {slots : Slots Word} {newCap : Nat} (positive : 0 < slots.length)
    (small : slots.length < maxCapacity) (newPositive : 0 < newCap)
    (newSmall : newCap < maxCapacity) :
    realloc granted (some slots) (bytes slots.length) (bytes newCap) =
      .ok (if granted then some (slots.resized newCap) else none) := by
  have laidOut := bytes_laidOut newPositive newSmall
  have old : bytes slots.length = slots.length * elemSize := bytes_of_lt small
  have oldPositive : slots.length * elemSize ≠ 0 := by simp only [elemSize]; omega
  simp only [realloc]
  rw [if_neg, bytes_div newSmall]
  simp only [old]
  tauto

/-! ### What an array that holds a list looks like -/

namespace Holds

theorem len_eq (holds : Holds array list) : array.len = list.length := by
  have counted := congrArg List.length holds.contents
  have bounded := holds.len_le
  have room := holds.room
  simp only [List.length_take, List.length_map] at counted
  omega

/-- The buffer is the elements and what is not used yet. -/
theorem slots_eq (holds : Holds array list) :
    ∃ spare, array.slots = list.map some ++ spare ∧ array.cap = list.length + spare.length := by
  refine ⟨array.slots.drop array.len, ?_, ?_⟩
  · rw [← holds.contents, List.take_append_drop]
  · rw [List.length_drop, holds.room, ← holds.len_eq]
    have bounded := holds.len_le
    omega

theorem ptr_eq (holds : Holds array list) (nonempty : 0 < array.cap) :
    ∃ spare, array.ptr = some (list.map some ++ spare) ∧
      array.cap = list.length + spare.length := by
  obtain ⟨spare, slots, cap⟩ := holds.slots_eq
  refine ⟨spare, ?_, cap⟩
  cases isPtr : array.ptr with
  | none =>
      have room := holds.room
      simp [HaxeArray.slots, isPtr] at room
      omega
  | some buffer => rw [← slots, HaxeArray.slots, isPtr, Option.getD_some]

theorem of_ptr (spare : Slots Word) (ptr : array.ptr = some (list.map some ++ spare))
    (len : array.len = list.length) (cap : array.cap = list.length + spare.length)
    (fits : array.cap < maxCapacity) (unflagged : array.flags = 0) : Holds array list where
  len_le := by omega
  room := by simp [HaxeArray.slots, ptr, cap]
  contents := by simp [HaxeArray.slots, ptr, len]
  fits := fits
  unflagged := unflagged

/-- Giving up elements at the end takes no access to the buffer. -/
theorem shortened (holds : Holds array list) (count : Nat) (fewer : count ≤ list.length) :
    Holds { array with len := count } (list.take count) where
  len_le := by
    have bounded := holds.len_le
    have len := holds.len_eq
    show count ≤ array.cap
    omega
  room := holds.room
  contents := by
    have len := holds.len_eq
    have taken := congrArg (List.take count) holds.contents
    rw [List.take_take, Nat.min_eq_left (by omega), ← List.map_take] at taken
    exact taken
  fits := holds.fits
  unflagged := holds.unflagged

theorem emptyArray : Holds emptyArray [] where
  len_le := by decide
  room := rfl
  contents := rfl
  fits := by decide
  unflagged := rfl

end Holds

/-! ### Growth -/

/-- The array there is, when the allocator gave one -/
def Answers (granted : Bool) (required : HaxeArray → Prop) : Option HaxeArray → Prop
  | none => granted = false
  | some array => required array

theorem doubleUntil_reaches {needed : Nat} (doublings : Nat) :
    ∀ {rounds cap : Nat}, doublings < rounds → needed ≤ cap * 2 ^ doublings →
      cap * 2 ^ doublings < maxCapacity →
      ∃ newCap, doubleUntil needed rounds cap = .ok newCap ∧ needed ≤ newCap ∧
        newCap < maxCapacity ∧ cap ≤ newCap := by
  induction doublings with
  | zero =>
      intro rounds cap enough reaches fits
      cases rounds with
      | zero => omega
      | succ rounds =>
          simp only [pow_zero, Nat.mul_one] at reaches fits
          exact ⟨cap, by rw [doubleUntil, if_neg (by omega)], reaches, fits, Nat.le_refl _⟩
  | succ doublings ih =>
      intro rounds cap enough reaches fits
      cases rounds with
      | zero => omega
      | succ rounds =>
          have bounded : cap * 2 ≤ cap * 2 ^ (doublings + 1) :=
            Nat.mul_le_mul_left cap (Nat.le_self_pow (by omega) 2)
          by_cases small : cap < needed
          · have doubled : wrapping (cap * 2) = cap * 2 := wrapping_of_lt (by omega)
            have shifted : cap * 2 * 2 ^ doublings = cap * 2 ^ (doublings + 1) := by ring
            obtain ⟨newCap, found, above, below, larger⟩ :=
              @ih rounds (cap * 2) (by omega)
                (by rw [shifted]; exact reaches) (by rw [shifted]; exact fits)
            refine ⟨newCap, ?_, above, below, by omega⟩
            rw [doubleUntil, if_pos small, doubled, found]
          · exact ⟨cap, by rw [doubleUntil, if_neg small], by omega, by omega, Nat.le_refl _⟩

theorem wrapping_mul (first second : Nat) :
    wrapping (wrapping first * second) = wrapping (first * second) := by
  rw [wrapping, wrapping, wrapping, Nat.mod_mul_mod]

theorem wrapping_lt (value : Nat) : wrapping value < 2 ^ 64 := Nat.mod_lt _ (by decide)

theorem doubleUntil_endless_rounds {needed : Nat} (rounds : Nat) :
    ∀ {cap : Nat}, cap < 2 ^ 64 → (doubleUntil needed rounds cap = .error .endless ↔
      ∀ doublings < rounds, wrapping (cap * 2 ^ doublings) < needed) := by
  induction rounds with
  | zero => intro cap machine; simp [doubleUntil]
  | succ rounds ih =>
      intro cap machine
      have start : wrapping (cap * 2 ^ 0) = cap := by
        rw [pow_zero, Nat.mul_one, wrapping, Nat.mod_eq_of_lt machine]
      have next (doublings : Nat) :
          wrapping (wrapping (cap * 2) * 2 ^ doublings) = wrapping (cap * 2 ^ (doublings + 1)) := by
        rw [wrapping_mul]
        congr 1
        ring
      rw [Nat.forall_lt_succ_left, start, doubleUntil]
      split_ifs with small
      · rw [ih (wrapping_lt _)]
        simp only [next, small, true_and]
      · simp [small]

/-- The loop is left exactly when one of the capacities it computes is enough. -/
theorem doubleUntil_endless {needed cap : Nat} (machine : cap < 2 ^ 64) :
    doubleUntil needed 65 cap = .error .endless ↔
      ∀ doublings, wrapping (cap * 2 ^ doublings) < needed := by
  rw [doubleUntil_endless_rounds 65 machine]
  refine ⟨fun early doublings => ?_, fun always doublings _ => always doublings⟩
  by_cases few : doublings < 65
  · exact early doublings few
  · have gone (many : Nat) (large : 64 ≤ many) : wrapping (cap * 2 ^ many) = 0 :=
      Nat.mod_eq_zero_of_dvd ((Nat.pow_dvd_pow 2 large).mul_left cap)
    have last := early 64 (by decide)
    rw [gone 64 (Nat.le_refl _)] at last
    rw [gone doublings (by omega)]
    exact last

theorem startingCapacity_pos (cap : Nat) : 0 < startingCapacity cap := by
  rw [startingCapacity]
  split_ifs with none
  · decide
  · omega

theorem le_startingCapacity (cap : Nat) : cap ≤ startingCapacity cap := by
  rw [startingCapacity]
  split_ifs with none <;> omega

theorem CanReach.newCap {needed : Nat} (reach : CanReach array needed)
    (more : array.cap < needed) :
    ∃ newCap, doubleUntil needed 65 (startingCapacity array.cap) = .ok newCap ∧
      needed ≤ newCap ∧ newCap < maxCapacity ∧ array.cap ≤ newCap := by
  obtain enough | ⟨doublings, reaches, fits⟩ := reach
  · omega
  · have few : doublings < 65 := by
      by_contra many
      have large : 2 ^ 65 ≤ startingCapacity array.cap * 2 ^ doublings :=
        calc 2 ^ 65
            _ ≤ 2 ^ doublings := Nat.pow_le_pow_right (by decide) (by omega)
            _ ≤ startingCapacity array.cap * 2 ^ doublings :=
              Nat.le_mul_of_pos_left _ (startingCapacity_pos _)
      simp only [maxCapacity] at fits
      omega
    obtain ⟨newCap, found, above, below, larger⟩ := doubleUntil_reaches doublings few reaches fits
    exact ⟨newCap, found, above, below, (le_startingCapacity _).trans larger⟩

theorem grow_holds (granted : Bool) (holds : Holds array list) {newCap : Nat} (positive : 0 < newCap)
    (larger : array.cap ≤ newCap) (fits : newCap < maxCapacity) :
    ∃ result, grow granted array newCap = .ok result ∧
      Answers granted (fun grown => Holds grown list ∧ grown.cap = newCap ∧
        grown.len = array.len) result := by
  by_cases fresh : array.ptr = none ∨ array.cap = 0
  · have noCap : array.cap = 0 := by
      obtain isNull | noCap := fresh
      · have room := holds.room
        rw [HaxeArray.slots, isNull] at room
        exact room.symm
      · exact noCap
    have empty : list = [] := by
      have len := holds.len_eq
      have bounded := holds.len_le
      exact List.eq_nil_of_length_eq_zero (by omega)
    refine ⟨_, by rw [grow, if_pos fresh, alloc_bytes positive fits]; rfl, ?_⟩
    cases granted with
    | false => rfl
    | true =>
        refine ⟨Holds.of_ptr (List.replicate newCap none) ?_ holds.len_eq ?_ fits
          holds.unflagged, rfl, rfl⟩
        · simp [empty]
        · simp [empty]
  · obtain ⟨spare, ptr, cap⟩ := holds.ptr_eq (by omega)
    have length : (list.map some ++ spare).length = array.cap := by simp [cap]
    refine ⟨_, by
      rw [grow, if_neg fresh, ptr, ← length, realloc_bytes (by omega)
        (by rw [length]; exact holds.fits) positive fits]
      rfl, ?_⟩
    cases granted with
    | false => rfl
    | true =>
        refine ⟨Holds.of_ptr (spare ++ List.replicate (newCap - array.cap) none) ?_
          holds.len_eq ?_ fits holds.unflagged, rfl, rfl⟩
        · rw [← List.append_assoc, ← length, ← Slots.resized_of_length_le (by omega)]
        · show newCap = _
          rw [List.length_append, List.length_replicate]
          omega

theorem ensureCapacity_holds (granted : Bool) (holds : Holds array list) {newLen : Nat}
    (reach : CanReach array newLen) :
    ∃ result, ensureCapacity granted array newLen = .ok result ∧
      Answers granted (fun grown => Holds grown list ∧ newLen ≤ grown.cap ∧
        grown.len = array.len) result := by
  rw [ensureCapacity]
  split_ifs with small
  · obtain ⟨newCap, found, above, fits, larger⟩ := reach.newCap small
    obtain ⟨result, grows, answers⟩ :=
      grow_holds granted holds (by omega) larger fits
    refine ⟨result, by rw [found]; exact grows, ?_⟩
    cases result with
    | none => exact answers
    | some grown => exact ⟨answers.1, by rw [answers.2.1]; exact above, answers.2.2⟩
  · exact ⟨some array, rfl, holds, by omega, rfl⟩

theorem expand_holds (granted : Bool) (holds : Holds array list) {newLen : Nat}
    (reach : CanReach array newLen) :
    ∃ result, expand granted array newLen = .ok result ∧
      Answers granted (fun expanded =>
        Holds expanded (list ++ List.replicate (newLen - list.length) 0)) result := by
  have len := holds.len_eq
  by_cases more : array.len < newLen
  case neg =>
    refine ⟨some array, by rw [expand, if_neg more]; rfl, ?_⟩
    rw [show newLen - list.length = 0 by omega]
    simpa [Answers] using holds
  obtain ⟨result, computed, answers⟩ := ensureCapacity_holds granted holds reach
  rw [expand, if_pos more, computed]
  cases result with
  | none => exact ⟨none, rfl, answers⟩
  | some grown =>
      obtain ⟨grownHolds, enough, sameLen⟩ := answers
      obtain ⟨spare, ptr, cap⟩ := grownHolds.ptr_eq (by omega)
      have fits := grownHolds.fits
      have fewer : newLen - list.length ≤ spare.length := by omega
      have written : writeZeros grown.ptr (bytes grown.len) (bytes (newLen - grown.len)) =
          .ok (some ((list ++ List.replicate (newLen - list.length) 0).map some ++
            spare.drop (newLen - list.length))) := by
        have filled := @writeZeros_bytes (list.map some) (spare.drop (newLen - list.length))
          (spare.take (newLen - list.length)) (by rw [List.length_map]; omega)
          (by rw [List.length_take]; omega)
        rw [List.append_assoc, List.take_append_drop, List.length_take, List.length_map,
          Nat.min_eq_left fewer] at filled
        rw [ptr, sameLen, len, filled]
        simp
      refine ⟨some { grown with
        ptr := some ((list ++ List.replicate (newLen - list.length) 0).map some ++
          spare.drop (newLen - list.length)), len := newLen }, ?_, ?_⟩
      · show (writeZeros _ _ _ >>= _) = _
        rw [written]
        rfl
      · refine Holds.of_ptr _ rfl ?_ ?_ fits grownHolds.unflagged
        · simp
          omega
        · show grown.cap = _
          simp
          omega

theorem reserve_holds (holds : Holds array list) (canDouble : CanDouble array) :
    Yields (Refused granted) (fun reserved => Holds reserved list ∧ reserved.len < reserved.cap)
      (reserve granted array) := by
  rw [reserve]
  split_ifs with isFull
  · have double : 2 * array.cap < maxCapacity := by
      obtain free | double := canDouble
      · omega
      · exact double
    have newCap : 0 < doubledCapacity array.cap ∧ array.cap < doubledCapacity array.cap ∧
        doubledCapacity array.cap < maxCapacity := by
      rw [doubledCapacity]
      split_ifs with noCap
      · rw [noCap]; decide
      · rw [wrapping_of_lt (by omega)]
        omega
    obtain ⟨result, grows, answers⟩ :=
      grow_holds granted holds newCap.1 newCap.2.1.le newCap.2.2
    rw [grows]
    cases result with
    | none => exact ⟨rfl, answers⟩
    | some grown =>
        refine ⟨answers.1, ?_⟩
        rw [answers.2.1, answers.2.2]
        have bounded := holds.len_le
        omega
  · exact ⟨holds, by omega⟩

/-! ### The operations of the language -/

/-- `list[index] = value`; past the end, zeros come between. -/
def assigned (list : List Word) (index : Nat) (value : Word) : List Word :=
  (list ++ List.replicate (index + 1 - list.length) 0).set index value

/-- Where `list.insert(index, _)` puts the element: a negative position is the start. -/
def insertPosition (list : List Word) (index : Int) : Nat :=
  min (max index 0).toNat list.length

def inserted (list : List Word) (index : Int) (value : Word) : List Word :=
  list.take (insertPosition list index) ++ value :: list.drop (insertPosition list index)

def resizedTo (list : List Word) (newLen : Int) : List Word :=
  if newLen < 0 then list
  else list.take newLen.toNat ++ List.replicate (newLen.toNat - list.length) 0

/-- Where `list.splice(pos, _)` starts: a negative position counts from the end. -/
def spliceStart (list : List Word) (pos : Int) : Nat :=
  if pos < 0 then (list.length + pos).toNat else min pos.toNat list.length

def spliceRemoved (list : List Word) (pos len : Int) : List Word :=
  (list.drop (spliceStart list pos)).take len.toNat

/-- What it leaves -/
def spliceKept (list : List Word) (pos len : Int) : List Word :=
  list.take (spliceStart list pos) ++ list.drop (spliceStart list pos + len.toNat)

/-! ### Stores -/

/-- Storing at an existing element -/
theorem store_holds (holds : Holds array list) (index : Nat) (within : index < list.length)
    (value : Word) :
    ∃ ptr, store array.ptr (bytes index) value = .ok ptr ∧
      Holds { array with ptr } (list.set index value) := by
  have bounded := holds.len_le
  have len := holds.len_eq
  have fits := holds.fits
  obtain ⟨spare, ptr, cap⟩ := holds.ptr_eq (by omega)
  have split : list = list.take index ++ list.get ⟨index, within⟩ :: list.drop (index + 1) := by
    simp
  have front : ((list.take index).map some).length = index := by
    simp
    omega
  have stored := store_bytes ((list.take index).map some)
    ((list.drop (index + 1)).map some ++ spare) (some (list.get ⟨index, within⟩)) value
    (by omega)
  rw [front] at stored
  have buffer : list.map some ++ spare = (list.take index).map some ++
      some (list.get ⟨index, within⟩) :: ((list.drop (index + 1)).map some ++ spare) := by
    have mapped := congrArg (fun list => list.map some ++ spare) split
    simpa only [List.map_append, List.map_cons, List.append_assoc, List.cons_append] using mapped
  have updated : (list.take index).map some ++ some value ::
      ((list.drop (index + 1)).map some ++ spare) = (list.set index value).map some ++ spare := by
    rw [List.set_eq_take_append_cons_drop, if_pos within]
    simp
  refine ⟨some ((list.set index value).map some ++ spare), ?_, ?_⟩
  · rw [ptr, buffer, stored, updated]
  · exact Holds.of_ptr _ rfl (by rw [List.length_set]; exact len)
      (by rw [List.length_set]; exact cap) fits holds.unflagged

/-- The functions that set an element: the element is set, or the allocator refused the
room it needs. -/
theorem setWith_holds (granted : Bool) (holds : Holds array list) {index : Word} (value : Word)
    (reach : CanReach array (index.toNat + 1)) :
    ∃ after stored, setWith granted array index value = .ok (after, stored) ∧
      if stored then Holds after (assigned list index.toNat value)
      else granted = false ∧ after = array := by
  have fits := holds.fits
  have len := holds.len_eq
  have small : index.toNat + 1 ≤ maxCapacity := by
    obtain enough | ⟨doublings, reaches, below⟩ := reach <;> omega
  obtain ⟨result, computed, answers⟩ := expand_holds granted holds reach
  rw [setWith, wrapping_of_lt small, computed]
  cases result with
  | none => exact ⟨array, false, rfl, answers, rfl⟩
  | some expanded =>
      obtain ⟨ptr, stored, after⟩ := store_holds answers index.toNat
        (by simp; omega) value
      refine ⟨{ expanded with ptr }, true, ?_, after⟩
      show (store _ _ _ >>= _) = _
      rw [stored]
      rfl

/-! ### One element in or out -/

/-- Storing right after the last element, where there is room -/
theorem append_holds (holds : Holds array list) (free : array.len < array.cap) (value : Word) :
    ∃ ptr, store array.ptr (bytes array.len) value = .ok ptr ∧
      Holds { array with ptr, len := wrapping (array.len + 1) } (list ++ [value]) := by
  have len := holds.len_eq
  have fits := holds.fits
  obtain ⟨spare, ptr, cap⟩ := holds.ptr_eq (by omega)
  cases spare with
  | nil => simp at cap; omega
  | cons old spare =>
      have stored := store_bytes (list.map some) spare old value
        (by rw [List.length_map]; omega)
      rw [List.length_map, ← len] at stored
      refine ⟨some ((list ++ [value]).map some ++ spare), ?_, Holds.of_ptr _ rfl ?_ ?_ fits
        holds.unflagged⟩
      · rw [ptr, stored]
        simp
      · rw [wrapping_of_lt (by omega), len, List.length_append, List.length_singleton]
      · show array.cap = _
        rw [List.length_append, List.length_singleton]
        simp only [List.length_cons] at cap
        omega

theorem haxeArrayPush_holds (holds : Holds array list) (value : Word)
    (canDouble : CanDouble array) :
    Yields (Refused granted) (Holds · (list ++ [value]))
      (haxeArrayPush granted array (some value)) := by
  apply Yields.bind (reserve_holds holds canDouble)
  intro reserved reservedHolds
  obtain ⟨ptr, stored, after⟩ := append_holds reservedHolds.1 reservedHolds.2 value
  rw [stored]
  exact after

/-- The last element, read before it is given up -/
theorem load_last (holds : Holds array list) (nonempty : array.len ≠ 0) :
    ∃ value, list.getLast? = some value ∧ load array.ptr (bytes (array.len - 1)) = .ok value ∧
      Holds { array with len := array.len - 1 } list.dropLast := by
  have len := holds.len_eq
  have bounded := holds.len_le
  have fits := holds.fits
  obtain ⟨spare, ptr, cap⟩ := holds.ptr_eq (by omega)
  have listNonempty : list ≠ [] := fun empty => nonempty (by rw [len, empty]; rfl)
  refine ⟨list.getLast listNonempty, List.getLast?_eq_some_getLast listNonempty, ?_, ?_⟩
  · have split : list.map some ++ spare =
        list.dropLast.map some ++ some (list.getLast listNonempty) :: spare := by
      conv_lhs => rw [← List.dropLast_append_getLast listNonempty]
      simp
    have read := load_bytes (list.dropLast.map some) spare
      (list.getLast listNonempty) (by simp; omega)
    rw [ptr, split, show array.len - 1 = (list.dropLast.map some).length by simp; omega, read]
  · have shorter := holds.shortened (array.len - 1) (by omega)
    rw [List.dropLast_eq_take, ← len]
    exact shorter

theorem haxeArrayPop_holds (holds : Holds array list) (wanted : Bool) :
    ∃ after, haxeArrayPop array wanted = .ok (after, !list.isEmpty,
        if wanted then list.getLast? else none) ∧ Holds after list.dropLast := by
  have len := holds.len_eq
  by_cases empty : array.len = 0
  · have isNil : list = [] := List.eq_nil_of_length_eq_zero (by omega)
    refine ⟨array, ?_, by rw [isNil] at holds ⊢; exact holds⟩
    rw [haxeArrayPop, if_pos empty, isNil]
    simp
    rfl
  · obtain ⟨value, last, read, after⟩ := load_last holds empty
    refine ⟨_, ?_, after⟩
    have nonempty : list.isEmpty = false := by
      cases list with
      | nil => simp at last
      | cons head tail => rfl
    rw [haxeArrayPop, if_neg empty, last, nonempty]
    cases wanted with
    | false => rfl
    | true =>
        simp only [if_true, read]
        rfl

theorem haxeArrayPopI64_holds (holds : Holds array list) :
    ∃ after, haxeArrayPopI64 array = .ok (after, list.getLast?.getD 0) ∧
      Holds after list.dropLast := by
  have len := holds.len_eq
  by_cases empty : array.len = 0
  · have isNil : list = [] := List.eq_nil_of_length_eq_zero (by omega)
    refine ⟨array, ?_, by rw [isNil] at holds ⊢; exact holds⟩
    rw [haxeArrayPopI64, if_pos empty, isNil]
    rfl
  · obtain ⟨value, last, read, after⟩ := load_last holds empty
    refine ⟨_, ?_, after⟩
    rw [haxeArrayPopI64, if_neg empty, last]
    show (load _ _ >>= _) = _
    rw [read]
    rfl

variable {front' rest gone : List Word}

theorem closeGap_holds (holds : Holds array (front' ++ gone ++ rest)) (moves : Bool)
    (movesSome : moves = true ↔ 0 < rest.length) :
    ∃ ptr, copyWhen moves array.ptr (bytes front'.length) (bytes (front'.length + gone.length))
        (bytes rest.length) = .ok ptr ∧
      Holds { array with ptr, len := front'.length + rest.length } (front' ++ rest) := by
  have len := holds.len_eq
  have bounded := holds.len_le
  have fits := holds.fits
  simp only [List.length_append] at len
  cases moves with
  | false =>
      have restEmpty : rest = [] := List.eq_nil_of_length_eq_zero (by simpa using movesSome)
      subst restEmpty
      have shorter := holds.shortened front'.length (by simp)
      rw [List.append_nil, List.take_left] at shorter
      rw [List.append_nil]
      exact ⟨array.ptr, rfl, shorter⟩
  | true =>
      have nonempty := movesSome.mp rfl
      obtain ⟨spare, ptr, cap⟩ := holds.ptr_eq (by omega)
      simp only [List.length_append] at cap
      obtain ⟨left, copies, length⟩ := @Slots.copy_down Word (front'.map some) (rest.map some)
        spare (gone.map some)
      simp only [List.length_append, List.length_map] at copies length
      rw [← List.map_append, ← List.map_append] at copies
      refine ⟨_, by rw [ptr]; exact copy_bytes (by omega) (by omega) (by omega) copies, ?_⟩
      refine Holds.of_ptr left (by simp) (by simp) ?_ fits holds.unflagged
      show array.cap = _
      rw [List.length_append]
      omega

/-- The elements after a position, if any, move up by one, and the new one takes the place. -/
theorem openGap_holds (holds : Holds array (front' ++ rest)) (free : array.len < array.cap)
    (moves : Bool) (movesSome : moves = true ↔ 0 < rest.length) (value : Word) :
    ∃ moved stored, copyWhen moves array.ptr (bytes (front'.length + 1)) (bytes front'.length)
        (bytes rest.length) = .ok moved ∧
      store moved (bytes front'.length) value = .ok stored ∧
      Holds { array with ptr := stored, len := wrapping (array.len + 1) }
        (front' ++ value :: rest) := by
  have len := holds.len_eq
  have fits := holds.fits
  simp only [List.length_append] at len
  cases moves with
  | false =>
      have restEmpty : rest = [] := List.eq_nil_of_length_eq_zero (by simpa using movesSome)
      subst restEmpty
      rw [List.append_nil] at holds
      obtain ⟨ptr, stored, after⟩ := append_holds holds free value
      rw [List.length_nil, Nat.add_zero] at len
      rw [len] at stored
      exact ⟨array.ptr, ptr, rfl, stored, after⟩
  | true =>
      obtain ⟨spare, ptr, cap⟩ := holds.ptr_eq (by omega)
      simp only [List.length_append] at cap
      cases spare with
      | nil => simp only [List.length_nil] at cap; omega
      | cons old spare =>
          simp only [List.length_cons] at cap
          obtain ⟨hole, copies⟩ := @Slots.copy_up Word (front'.map some) (rest.map some) spare old
          simp only [List.length_map] at copies
          rw [← List.map_append] at copies
          have stored := store_bytes (front'.map some) (rest.map some ++ spare)
            hole value (by rw [List.length_map]; omega)
          rw [List.length_map] at stored
          refine ⟨_, _, by rw [ptr]; exact copy_bytes (by omega) (by omega) (by omega) copies,
            by rw [List.append_assoc, List.cons_append]; exact stored, ?_⟩
          refine Holds.of_ptr spare (by simp) ?_ ?_ fits holds.unflagged
          · show wrapping (array.len + 1) = _
            rw [wrapping_of_lt (by omega), List.length_append, List.length_cons]
            omega
          · show array.cap = _
            rw [List.length_append, List.length_cons]
            omega

theorem reserveByRealloc_holds (holds : Holds array list) (canDouble : CanDouble array)
    (hasBuffer : array.cap ≠ 0) :
    Yields (Refused granted) (fun reserved => Holds reserved list ∧ reserved.len < reserved.cap)
      (reserveByRealloc granted array) := by
  have bounded := holds.len_le
  by_cases full : array.cap ≤ array.len
  case neg =>
    rw [reserveByRealloc, if_neg full]
    exact ⟨holds, by omega⟩
  -- with a buffer, this is the growth of the other functions
  have same : reserveByRealloc granted array = reserve granted array := by
    obtain ⟨spare, ptr, cap⟩ := holds.ptr_eq (by omega)
    have growing : ¬ (array.ptr = none ∨ array.cap = 0) := by
      rw [ptr]
      simpa using hasBuffer
    rw [reserveByRealloc, if_pos full, reserve, if_pos full, grow, if_neg growing,
      doubledCapacity, if_neg hasBuffer]
    dsimp only
    cases realloc granted array.ptr (bytes array.cap) (bytes (wrapping (array.cap * 2))) with
    | error trap => rfl
    | ok result =>
        cases result with
        | none => rfl
        | some slots => rfl
  rw [same]
  exact reserve_holds holds canDouble

theorem haxeArrayInsert_holds (holds : Holds array list) (index : Int32) (value : Word)
    (canDouble : CanDouble array) (hasBuffer : array.cap ≠ 0) :
    Yields (Refused granted) (Holds · (inserted list index.toInt value))
      (haxeArrayInsert granted array index (some value)) := by
  have len := holds.len_eq
  apply Yields.bind (reserveByRealloc_holds holds canDouble hasBuffer)
  intro reserved reservedHolds
  obtain ⟨reservedHolds, free⟩ := reservedHolds
  have reservedLen := reservedHolds.len_eq
  have fits := reservedHolds.fits
  rw [len, inserted, insertPosition]
  generalize position : min (max index.toInt 0).toNat list.length = insertPos
  have within : insertPos ≤ list.length := by omega
  have front : (list.take insertPos).length = insertPos := by rw [List.length_take]; omega
  have restLength : (list.drop insertPos).length = reserved.len - insertPos := by
    rw [List.length_drop]; omega
  rw [← List.take_append_drop insertPos list] at reservedHolds
  obtain ⟨moved, stored, copies, stores, after⟩ := openGap_holds reservedHolds free
    (decide (insertPos < reserved.len)) (by rw [decide_eq_true_iff]; omega) value
  rw [front, restLength] at copies
  rw [front] at stores
  have offset : wrapping (bytes insertPos + elemSize) = bytes (insertPos + 1) := by
    rw [bytes_of_lt (by omega), bytes, wrapping, wrapping, elemSize, Nat.add_mul, Nat.one_mul]
  rw [offset, copies]
  show Yields _ _ (store _ _ _ >>= _)
  rw [stores]
  exact after

theorem haxeArrayRemove_holds (holds : Holds array list) (index : Word) :
    ∃ after, haxeArrayRemove array index = .ok (after, decide (index.toNat < list.length)) ∧
      Holds after (list.eraseIdx index.toNat) := by
  have len := holds.len_eq
  by_cases past : array.len ≤ index.toNat
  · refine ⟨array, ?_, by rw [List.eraseIdx_of_length_le (by omega)]; exact holds⟩
    rw [haxeArrayRemove, if_pos past, decide_eq_false (by omega)]
    rfl
  · have within : index.toNat < list.length := by omega
    have split : list = list.take index.toNat ++ [list.get ⟨_, within⟩] ++
        list.drop (index.toNat + 1) := by simp
    have front : (list.take index.toNat).length = index.toNat := by
      rw [List.length_take]; omega
    have restLength : (list.drop (index.toNat + 1)).length = array.len - index.toNat - 1 := by
      rw [List.length_drop]; omega
    rw [split] at holds
    obtain ⟨ptr, copies, after⟩ := closeGap_holds holds (decide (index.toNat < array.len - 1))
      (by rw [decide_eq_true_iff]; omega)
    rw [front, restLength, List.length_singleton] at copies
    rw [front, restLength] at after
    refine ⟨{ array with ptr, len := array.len - 1 }, ?_, ?_⟩
    · rw [haxeArrayRemove, if_neg past, copies, decide_eq_true within]
      rfl
    · rw [List.eraseIdx_eq_take_drop_succ]
      rw [show index.toNat + (array.len - index.toNat - 1) = array.len - 1 by omega] at after
      exact after

theorem haxeArrayShift_holds (holds : Holds array list) :
    ∃ after, haxeArrayShift array = .ok (after, list.head?.getD 0) ∧ Holds after list.tail := by
  have len := holds.len_eq
  have bounded := holds.len_le
  cases list with
  | nil =>
      rw [List.length_nil] at len
      exact ⟨array, by rw [haxeArrayShift, if_pos len]; rfl, holds⟩
  | cons first rest =>
      simp only [List.length_cons] at len
      obtain ⟨spare, ptr, cap⟩ := holds.ptr_eq (by omega)
      have read : load array.ptr 0 = .ok first := by
        rw [ptr]
        exact load_bytes [] _ first (by decide)
      obtain ⟨moved, copies, after⟩ := @closeGap_holds array [] rest [first] holds
        (decide (1 < array.len)) (by rw [decide_eq_true_iff]; omega)
      refine ⟨{ array with ptr := moved, len := array.len - 1 }, ?_, ?_⟩
      · rw [haxeArrayShift, if_neg (by omega), read]
        show (copyWhen _ _ _ _ _ >>= _) = _
        rw [show array.len - 1 = rest.length by omega]
        exact congrArg (· >>= _) copies
      · rw [show array.len - 1 = ([] : List Word).length + rest.length by simp [len]]
        exact after

theorem haxeArrayUnshift_holds (holds : Holds array list) (value : Word)
    (canDouble : CanDouble array) :
    Yields (Refused granted) (Holds · (value :: list)) (haxeArrayUnshift granted array value) := by
  apply Yields.bind (reserve_holds holds canDouble)
  intro reserved reservedHolds
  have len := reservedHolds.1.len_eq
  obtain ⟨moved, stored, copies, stores, after⟩ := @openGap_holds reserved [] list
    reservedHolds.1 reservedHolds.2 (decide (0 < reserved.len))
    (by rw [decide_eq_true_iff, len]) value
  rw [← len] at copies
  show Yields _ _ (copyWhen _ _ _ _ _ >>= _)
  rw [show copyWhen (decide (0 < reserved.len)) reserved.ptr elemSize 0 (bytes reserved.len) =
    .ok moved from copies]
  show Yields _ _ (store _ _ _ >>= _)
  rw [show store moved 0 value = .ok stored from stores]
  exact after

theorem haxeArrayResize_holds (holds : Holds array list) (newLen : Int64)
    (reach : 0 ≤ newLen.toInt → CanReach array newLen.toInt.toNat) :
    Yields (Refused granted) (Holds · (resizedTo list newLen.toInt))
      (haxeArrayResize granted array newLen) := by
  have len := holds.len_eq
  rw [haxeArrayResize, resizedTo]
  by_cases negative : newLen.toInt < 0
  · rw [if_pos negative, if_pos negative]
    exact holds
  rw [if_neg negative, if_neg negative]
  by_cases shorter : newLen.toInt.toNat ≤ array.len
  · rw [if_pos shorter, show newLen.toInt.toNat - list.length = 0 by omega]
    rw [List.replicate_zero, List.append_nil]
    exact holds.shortened _ (by omega)
  · obtain ⟨result, computed, answers⟩ :=
      expand_holds granted holds (reach (by omega))
    rw [if_neg shorter, computed, List.take_of_length_le (by omega)]
    cases result with
    | none => exact ⟨rfl, answers⟩
    | some expanded => exact answers

end Rayzor.Arrays
