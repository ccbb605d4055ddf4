import Mathlib

/-!
Contract: bounded runs of memory slots, some of them not initialised yet.
-/

namespace Rayzor.Library

universe u

/-- A buffer; `none` is a slot that holds nothing yet. -/
abbrev Slots (α : Type u) := List (Option α)

namespace Slots

variable {α : Type u}

/-- The value at a position, if the position exists and is initialised. -/
def load (slots : Slots α) (position : Nat) : Option α := slots[position]?.join

def store (slots : Slots α) (position : Nat) (value : α) : Option (Slots α) :=
  if position < slots.length then some (slots.set position (some value)) else none

def fill (slots : Slots α) (start count : Nat) (value : α) : Option (Slots α) :=
  if start + count ≤ slots.length then
    some (slots.take start ++ List.replicate count (some value) ++ slots.drop (start + count))
  else none

/-- `count` slots of `from` are copied to `target`, initialised or not. The two buffers may
be one and the same, and the two ranges may overlap. -/
def copy (slots : Slots α) (target : Nat) (source : Slots α) (start count : Nat) :
    Option (Slots α) :=
  if start + count ≤ source.length ∧ target + count ≤ slots.length then
    some (slots.take target ++ (source.drop start).take count ++ slots.drop (target + count))
  else none

/-- Two slots change places. -/
def swap (slots : Slots α) (first second : Nat) : Option (Slots α) :=
  if bounds : first < slots.length ∧ second < slots.length then
    some ((slots.set first (slots.get ⟨second, bounds.2⟩)).set second
      (slots.get ⟨first, bounds.1⟩))
  else none

/-- The same buffer with another size: what fits is kept. -/
def resized (slots : Slots α) (size : Nat) : Slots α :=
  slots.take size ++ List.replicate (size - slots.length) none

variable {front middle rest back : Slots α}

theorem resized_of_length_le {slots : Slots α} {size : Nat} (larger : slots.length ≤ size) :
    slots.resized size = slots ++ List.replicate (size - slots.length) none := by
  rw [resized, List.take_of_length_le larger]

theorem load_append (value : α) :
    load (front ++ some value :: back) front.length = some value := by
  simp [load]

theorem store_append (old : Option α) (value : α) :
    store (front ++ old :: back) front.length value = some (front ++ some value :: back) := by
  simp [store]

theorem fill_append (value : α) :
    fill (front ++ middle ++ back) front.length middle.length value =
      some (front ++ List.replicate middle.length (some value) ++ back) := by
  simp [fill, List.drop_append]

theorem copy_append {before taken after : Slots α} (sameLength : taken.length = middle.length) :
    copy (front ++ middle ++ back) front.length (before ++ taken ++ after) before.length
      taken.length = some (front ++ taken ++ back) := by
  have source : ((before ++ taken ++ after).drop before.length).take taken.length = taken := by
    simp
  have target : (front ++ middle ++ back).drop (front.length + taken.length) = back := by
    simp [sameLength, List.drop_append]
  rw [copy, if_pos (by simp [sameLength]), source, target]
  simp

/-- Closing a gap: what follows it moves down. -/
theorem copy_down (gone : Slots α) :
    ∃ spare, copy (front ++ gone ++ rest ++ back) front.length (front ++ gone ++ rest ++ back)
        (front ++ gone).length rest.length = some (front ++ rest ++ spare) ∧
      spare.length = gone.length + back.length := by
  have target : front ++ gone ++ rest ++ back =
      front ++ (gone ++ rest).take rest.length ++ ((gone ++ rest).drop rest.length ++ back) := by
    conv_lhs => rw [List.append_assoc front, ← List.take_append_drop rest.length (gone ++ rest)]
    simp only [List.append_assoc]
  refine ⟨(gone ++ rest).drop rest.length ++ back, ?_, by simp⟩
  conv_lhs => arg 1; rw [target]
  apply copy_append
  simp

/-- Opening a gap of one slot: what follows it moves up, over the first slot of the rest. -/
theorem copy_up (free : Option α) :
    ∃ hole, copy (front ++ rest ++ free :: back) (front.length + 1)
        (front ++ rest ++ free :: back) front.length rest.length =
      some (front ++ hole :: rest ++ back) := by
  cases reversed : rest ++ [free] with
  | nil => simp at reversed
  | cons hole moved =>
      have target : front ++ rest ++ free :: back = front ++ [hole] ++ moved ++ back := by
        rw [List.append_assoc, List.append_cons, ← List.append_assoc, reversed]
        simp
      have lengths : rest.length = moved.length := by
        have counted := congrArg List.length reversed
        simpa using counted
      refine ⟨hole, ?_⟩
      conv_lhs => arg 1; rw [target]
      have copied := @copy_append α (front ++ [hole]) moved back front rest (free :: back) lengths
      simpa using copied

theorem swap_append (first second : Option α) :
    swap (front ++ first :: middle ++ second :: back) front.length
        (front.length + 1 + middle.length) =
      some (front ++ second :: middle ++ first :: back) := by
  have bounds : front.length < (front ++ first :: middle ++ second :: back).length ∧
      front.length + 1 + middle.length < (front ++ first :: middle ++ second :: back).length := by
    simp; omega
  rw [swap, dif_pos bounds]
  simp [Nat.add_assoc, Nat.add_comm 1]

end Slots

end Rayzor.Library
