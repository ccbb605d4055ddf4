import Mathlib

/-!
Contract: lists that are cut at a part.

Owns: where a list holds another (`First`), and the pieces between the leftmost
occurrences that do not overlap (`Cut`).
-/

namespace Rayzor.Library

variable {α : Type*}

/-- The first place from `start` on where a list holds `part`, if there is one. -/
def First (part list : List α) (start : Nat) : Option Nat → Prop
  | some i => start ≤ i ∧ part <+: list.drop i ∧
      ∀ j, start ≤ j → j < i → ¬ part <+: list.drop j
  | none => ∀ j, start ≤ j → ¬ part <+: list.drop j

/-- The pieces between the leftmost occurrences of `part` that do not overlap -/
inductive Cut (part : List α) : List α → List (List α) → Prop
  | last {list : List α} : First part list 0 none → Cut part list [list]
  | cut {list : List α} {i : Nat} {pieces : List (List α)} : First part list 0 (some i) →
      Cut part (list.drop (i + part.length)) pieces → Cut part list (list.take i :: pieces)

theorem First.unique {part list : List α} {start : Nat} {one other : Option Nat}
    (first : First part list start one) (first' : First part list start other) : one = other := by
  cases one with
  | none =>
      cases other with
      | none => rfl
      | some i => exact absurd first'.2.1 (first i first'.1)
  | some i =>
      cases other with
      | none => exact absurd first.2.1 (first' i first.1)
      | some i' =>
          rcases Nat.lt_trichotomy i i' with before | same | behind
          · exact absurd first.2.1 (first'.2.2 i first.1 before)
          · rw [same]
          · exact absurd first'.2.1 (first.2.2 i' first'.1 behind)

theorem First.drop {part list : List α} {start : Nat} {found : Option Nat}
    (first : First part list start found) :
    First part (list.drop start) 0 (found.map (· - start)) := by
  cases found with
  | none =>
      intro j _
      rw [List.drop_drop]
      exact first _ (Nat.le_add_right start j)
  | some i =>
      obtain ⟨behind, occurs, least⟩ := first
      refine ⟨Nat.zero_le _, ?_, ?_⟩
      · rw [List.drop_drop, Nat.add_sub_cancel' behind]
        exact occurs
      · intro j _ before
        change j < i - start at before
        rw [List.drop_drop]
        exact least _ (Nat.le_add_right start j) (by omega)

theorem First.fits {part list : List α} {start i : Nat} (nonempty : part ≠ [])
    (first : First part list start (some i)) : i + part.length ≤ list.length := by
  have height := List.length_pos_of_ne_nil nonempty
  have long := first.2.1.length_le
  rw [List.length_drop] at long
  omega

theorem First.past {part list : List α} {start : Nat} (nonempty : part ≠ [])
    (short : list.length < start + part.length) : First part list start none := by
  have height := List.length_pos_of_ne_nil nonempty
  intro j behind occurs
  have long := occurs.length_le
  rw [List.length_drop] at long
  omega

namespace Cut

variable {part list : List α} {pieces : List (List α)}

theorem ne_nil (cut : Cut part list pieces) : pieces ≠ [] := by
  cases cut with
  | last => exact List.cons_ne_nil _ _
  | cut => exact List.cons_ne_nil _ _

theorem intercalate (cut : Cut part list pieces) : part.intercalate pieces = list := by
  induction cut with
  | last => exact List.intercalate_singleton
  | @cut list i pieces first rest ih =>
      obtain ⟨behind, isRest⟩ := first.2.1
      rw [List.intercalate_cons_of_ne_nil rest.ne_nil, ih, ← List.drop_drop,
        ← isRest, List.drop_left, List.append_assoc, isRest, List.take_append_drop]

theorem not_infix (nonempty : part ≠ []) (cut : Cut part list pieces) :
    ∀ piece ∈ pieces, ¬ part <:+: piece := by
  induction cut with
  | @last list absent =>
      intro piece isPiece occurs
      rw [List.mem_singleton.mp isPiece] at occurs
      obtain ⟨before, behind, isList⟩ := occurs
      apply absent before.length (Nat.zero_le _)
      rw [← isList, List.append_assoc, List.drop_left]
      exact List.prefix_append part behind
  | @cut list i pieces first rest ih =>
      intro piece isPiece occurs
      rcases List.mem_cons.mp isPiece with isFirst | later
      · rw [isFirst] at occurs
        obtain ⟨before, behind, isTake⟩ := occurs
        have height := List.length_pos_of_ne_nil nonempty
        have short : before.length < i := by
          have long := congrArg List.length isTake
          rw [List.length_append, List.length_append, List.length_take] at long
          omega
        apply first.2.2 before.length (Nat.zero_le _) short
        refine List.IsPrefix.trans ?_ (List.IsPrefix.drop (List.take_prefix i list) _)
        rw [← isTake, List.append_assoc, List.drop_left]
        exact List.prefix_append part behind
      · exact ih piece later occurs

end Cut

def offsets : Nat → List (List α) → List Nat
  | _, [] => []
  | start, piece :: pieces => start :: offsets (start + piece.length) pieces

/-- The neighbours among the places where pieces start, and their end -/
def bounds (start : Nat) (pieces : List (List α)) : List (Nat × Nat) :=
  let all := offsets start pieces ++ [start + pieces.flatten.length]
  all.zip all.tail

theorem bounds_cons (start : Nat) (piece : List α) (pieces : List (List α)) :
    bounds start (piece :: pieces) =
      (start, start + piece.length) :: bounds (start + piece.length) pieces := by
  have same : start + (piece :: pieces).flatten.length =
      start + piece.length + pieces.flatten.length := by
    rw [List.flatten_cons, List.length_append, Nat.add_assoc]
  rw [bounds, bounds, same, offsets]
  cases pieces with
  | nil => rfl
  | cons next pieces => rfl

end Rayzor.Library
