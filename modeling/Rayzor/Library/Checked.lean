import Mathlib

/-!
Contract: integers of a fixed width whose overflow is an error.

Owns: the check, sums that are checked at every step, and the bounds under which no step fails.
-/

namespace Rayzor.Library

universe u

/-- An integer that fits the signed integers of a width. -/
def checked (width : Nat) (value : Int) : Option Int :=
  if -2 ^ (width - 1) ≤ value ∧ value < 2 ^ (width - 1) then some value else none

namespace Checked

variable {α : Type u} {width : Nat}

theorem checked_eq_some {value bound : Int} (small : |value| ≤ bound)
    (fits : bound < 2 ^ (width - 1)) : checked width value = some value := by
  obtain ⟨above, below⟩ := abs_le.mp small
  apply if_pos
  constructor <;> linarith

/-- Terms are added up one after the other, each sum checked. -/
def accumulate (width : Nat) (term : α → Option Int) (list : List α) (start : Int) : Option Int :=
  list.foldlM (fun acc index => (term index).bind fun value => checked width (acc + value)) start

theorem accumulate_eq_some {term : α → Option Int} {value : α → Int} {bound : Nat}
    {list : List α} (terms : ∀ index ∈ list, term index = some (value index))
    (small : ∀ index ∈ list, |value index| ≤ bound) : ∀ {start : Int},
      |start| + (list.length * bound : Nat) < 2 ^ (width - 1) →
        accumulate width term list start = some (start + (list.map value).sum) := by
  unfold accumulate
  induction list with
  | nil =>
      intro start _
      rw [List.map_nil, List.sum_nil, add_zero]
      rfl
  | cons index list ih =>
      intro start fits
      have isTerm := terms index List.mem_cons_self
      have isSmall := small index List.mem_cons_self
      rw [List.length_cons, Nat.succ_mul] at fits
      push_cast at fits
      have next : |start + value index| ≤ |start| + bound :=
        (abs_add_le _ _).trans (by linarith)
      have rest : (0 : Int) ≤ list.length * bound := by positivity
      have fitsNext : checked width (start + value index) = some (start + value index) :=
        checked_eq_some next (by linarith)
      rw [List.foldlM_cons, isTerm, Option.bind_some, fitsNext, List.map_cons, List.sum_cons,
        ← add_assoc]
      apply ih
      · exact fun other isOther => terms other (List.mem_cons_of_mem _ isOther)
      · exact fun other isOther => small other (List.mem_cons_of_mem _ isOther)
      · push_cast
        linarith

end Checked

end Rayzor.Library
