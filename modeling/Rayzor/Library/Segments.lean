import Mathlib

/-!
Contract: lists that fall into pieces, each as wide as what follows its start says.

Owns: when widths make a segmentation (`Segmentation`), the pieces of a list, and
the way from offsets to pieces and back.
-/

namespace Rayzor.Library

variable {α : Type*}

/-- How many items the first piece of a list has. A piece is the same in every list that
holds all of it; of a piece that is cut, and behind the start of any, each item is a piece. -/
structure Segmentation (α : Type*) where
  width : List α → Nat
  positive : ∀ list, 0 < width list
  fits : ∀ {list}, list ≠ [] → width list ≤ list.length
  whole : ∀ {list n}, width list ≤ n → width (list.take n) = width list
  cut : ∀ {list n}, 0 < n → n < width list → width (list.take n) = 1
  inner : ∀ {list n}, 0 < n → n < width list → width (list.drop n) = 1

namespace Segmentation

variable (split : Segmentation α)

theorem length_drop_lt {list : List α} (nonempty : list ≠ []) :
    (list.drop (split.width list)).length < list.length := by
  have height := List.length_pos_of_ne_nil nonempty
  have wide := split.positive list
  rw [List.length_drop]
  omega

def pieces (list : List α) : List (List α) :=
  if _nonempty : list ≠ [] then
    list.take (split.width list) :: pieces (list.drop (split.width list))
  else []
  termination_by list.length
  decreasing_by exact split.length_drop_lt ‹_›

def count (list : List α) : Nat := (split.pieces list).length

/-- The offset behind a number of pieces, or the end. -/
def advance : Nat → List α → Nat
  | 0, _ => 0
  | _ + 1, [] => 0
  | n + 1, item :: rest =>
      split.width (item :: rest) + advance n ((item :: rest).drop (split.width (item :: rest)))

/-- How many pieces start before an offset. -/
def index (list : List α) (offset : Nat) : Nat :=
  if nonempty : list ≠ [] then
    if offset = 0 then 0
    else index (list.drop (split.width list)) (offset - split.width list) + 1
  else 0
  termination_by list.length
  decreasing_by exact split.length_drop_lt ‹_›

/-- An offset between two pieces, or at an end. -/
def Boundary (list : List α) (offset : Nat) : Prop :=
  ∃ n ≤ split.count list, split.advance n list = offset

/-- A piece of the two lists together starts in the first and ends in the second. -/
def Straddles (first second : List α) : Prop :=
  ∃ i < first.length, first.length < i + split.width ((first ++ second).drop i)

@[simp] theorem pieces_nil : split.pieces [] = [] := by
  rw [pieces]
  exact dif_neg (not_not_intro rfl)

theorem pieces_of_ne_nil {list : List α} (nonempty : list ≠ []) :
    split.pieces list =
      list.take (split.width list) :: split.pieces (list.drop (split.width list)) := by
  rw [pieces]
  exact dif_pos nonempty

@[simp] theorem count_nil : split.count [] = 0 := by
  rw [count, pieces_nil, List.length_nil]

theorem count_of_ne_nil {list : List α} (nonempty : list ≠ []) :
    split.count list = split.count (list.drop (split.width list)) + 1 := by
  rw [count, split.pieces_of_ne_nil nonempty, List.length_cons, count]

@[simp] theorem advance_zero (list : List α) : split.advance 0 list = 0 := rfl

@[simp] theorem advance_nil : ∀ n, split.advance n [] = 0
  | 0 => rfl
  | _ + 1 => rfl

theorem advance_succ {list : List α} (nonempty : list ≠ []) (n : Nat) :
    split.advance (n + 1) list =
      split.width list + split.advance n (list.drop (split.width list)) := by
  obtain ⟨item, rest, rfl⟩ := List.exists_cons_of_ne_nil nonempty
  rfl

@[simp] theorem index_zero (list : List α) : split.index list 0 = 0 := by
  rw [index, if_pos rfl]
  split_ifs <;> rfl

@[simp] theorem index_nil (offset : Nat) : split.index [] offset = 0 := by
  rw [index]
  exact dif_neg (not_not_intro rfl)

theorem index_of_ne_nil {list : List α} (nonempty : list ≠ []) {offset : Nat} (later : offset ≠ 0) :
    split.index list offset =
      split.index (list.drop (split.width list)) (offset - split.width list) + 1 := by
  rw [index, dif_pos nonempty, if_neg later]

/-- An induction that takes one piece off after the other. -/
theorem piecewise {motive : List α → Prop} (nil : motive [])
    (piece : ∀ list, list ≠ [] → motive (list.drop (split.width list)) → motive list) :
    ∀ list, motive list := by
  intro list
  induction isLength : list.length using Nat.strong_induction_on generalizing list with
  | _ length ih =>
      by_cases nonempty : list = []
      · rw [nonempty]
        exact nil
      · apply piece list nonempty
        have shorter := split.length_drop_lt nonempty
        exact ih _ (isLength ▸ shorter) _ rfl

theorem flatten_pieces (list : List α) : (split.pieces list).flatten = list := by
  induction list using split.piecewise with
  | nil => rw [pieces_nil, List.flatten_nil]
  | piece list nonempty ih =>
      rw [split.pieces_of_ne_nil nonempty, List.flatten_cons, ih,
        List.take_append_drop]

theorem count_le_length (list : List α) : split.count list ≤ list.length := by
  induction list using split.piecewise with
  | nil => rw [count_nil]; exact Nat.zero_le _
  | piece list nonempty ih =>
      have shorter := split.length_drop_lt nonempty
      rw [split.count_of_ne_nil nonempty]
      omega

theorem advance_le (n : Nat) (list : List α) : split.advance n list ≤ list.length := by
  induction list using split.piecewise generalizing n with
  | nil => rw [advance_nil]; exact Nat.zero_le _
  | piece list nonempty ih =>
      cases n with
      | zero => exact Nat.zero_le _
      | succ n =>
          have within := ih n
          have fits := split.fits nonempty
          rw [split.advance_succ nonempty]
          rw [List.length_drop] at within
          omega

theorem advance_of_count_le {n : Nat} {list : List α} (all : split.count list ≤ n) :
    split.advance n list = list.length := by
  induction list using split.piecewise generalizing n with
  | nil => rw [advance_nil, List.length_nil]
  | piece list nonempty ih =>
      rw [split.count_of_ne_nil nonempty] at all
      cases n with
      | zero => exact absurd all (Nat.not_succ_le_zero _)
      | succ n =>
          have fits := split.fits nonempty
          have reached := ih (Nat.le_of_succ_le_succ all)
          rw [split.advance_succ nonempty, reached, List.length_drop]
          omega

theorem advance_add (m n : Nat) (list : List α) :
    split.advance (m + n) list =
      split.advance m list + split.advance n (list.drop (split.advance m list)) := by
  induction m generalizing list with
  | zero => rw [Nat.zero_add, advance_zero, Nat.zero_add, List.drop_zero]
  | succ m ih =>
      by_cases nonempty : list = []
      · rw [nonempty, List.drop_nil, advance_nil, advance_nil, advance_nil]
      · rw [Nat.add_right_comm, split.advance_succ nonempty, split.advance_succ nonempty,
          ih, List.drop_drop, Nat.add_assoc]

/-- What is left behind a number of pieces has the others. -/
theorem count_drop (n : Nat) (list : List α) :
    split.count (list.drop (split.advance n list)) = split.count list - n := by
  induction n generalizing list with
  | zero => rw [advance_zero, List.drop_zero, Nat.sub_zero]
  | succ n ih =>
      by_cases nonempty : list = []
      · rw [nonempty, List.drop_nil, count_nil, Nat.zero_sub]
      · rw [split.advance_succ nonempty, ← List.drop_drop, ih,
          split.count_of_ne_nil nonempty, Nat.add_sub_add_right]

/-- A number of pieces, taken from a list, has so many pieces. -/
theorem count_take {n : Nat} {list : List α} (enough : n ≤ split.count list) :
    split.count (list.take (split.advance n list)) = n := by
  induction list using split.piecewise generalizing n with
  | nil =>
      rw [List.take_nil, count_nil]
      exact (Nat.le_zero.mp (split.count_nil ▸ enough)).symm
  | piece list nonempty ih =>
      cases n with
      | zero => rw [advance_zero, List.take_zero, count_nil]
      | succ n =>
          rw [split.count_of_ne_nil nonempty] at enough
          have left := ih (Nat.le_of_succ_le_succ enough)
          have wide := split.positive list
          have height := List.length_pos_of_ne_nil nonempty
          rw [split.advance_succ nonempty]
          generalize split.advance n (list.drop (split.width list)) = later at left
          have first := split.whole (Nat.le_add_right (split.width list) later)
          have part : list.take (split.width list + later) ≠ [] := by
            apply List.ne_nil_of_length_pos
            rw [List.length_take]
            omega
          rw [split.count_of_ne_nil part, first, List.drop_take, Nat.add_sub_cancel_left, left]

theorem index_advance {n : Nat} {list : List α} (enough : n ≤ split.count list) :
    split.index list (split.advance n list) = n := by
  induction n generalizing list with
  | zero => rw [advance_zero, index_zero]
  | succ n ih =>
      have nonempty : list ≠ [] := by
        intro isNil
        rw [isNil, count_nil] at enough
        exact Nat.not_succ_le_zero _ enough
      have wide := split.positive list
      rw [split.count_of_ne_nil nonempty] at enough
      have counted := ih (Nat.le_of_succ_le_succ enough)
      rw [split.advance_succ nonempty, split.index_of_ne_nil nonempty (by omega), Nat.add_sub_cancel_left,
        counted]

theorem advance_index {list : List α} {offset : Nat} (boundary : split.Boundary list offset) :
    split.advance (split.index list offset) list = offset := by
  obtain ⟨n, enough, rfl⟩ := boundary
  rw [split.index_advance enough]

theorem boundary_advance (n : Nat) (list : List α) :
    split.Boundary list (split.advance n list) := by
  rcases Nat.le_total n (split.count list) with few | all
  · exact ⟨n, few, rfl⟩
  · rw [split.advance_of_count_le all]
    exact ⟨_, Nat.le_refl _, split.advance_of_count_le (Nat.le_refl _)⟩

/-- A list with as many pieces as items has pieces of one item. -/
theorem width_of_count_eq_length {list : List α} (nonempty : list ≠ [])
    (single : split.count list = list.length) :
    split.width list = 1 ∧
      split.count (list.drop (split.width list)) = (list.drop (split.width list)).length := by
  have wide := split.positive list
  have fits := split.fits nonempty
  have few := split.count_le_length (list.drop (split.width list))
  rw [split.count_of_ne_nil nonempty] at single
  rw [List.length_drop] at few ⊢
  omega

theorem advance_of_single {list : List α} (single : split.count list = list.length) (n : Nat) :
    split.advance n list = min n list.length := by
  induction n generalizing list with
  | zero => rw [advance_zero, Nat.zero_min]
  | succ n ih =>
      by_cases nonempty : list = []
      · rw [nonempty, advance_nil, List.length_nil, Nat.min_zero]
      · obtain ⟨one, singleLater⟩ := split.width_of_count_eq_length nonempty single
        have height := List.length_pos_of_ne_nil nonempty
        rw [split.advance_succ nonempty, ih singleLater, one, List.length_drop]
        omega

theorem index_of_single {list : List α} (single : split.count list = list.length) (offset : Nat) :
    split.index list offset = min offset list.length := by
  induction offset generalizing list with
  | zero => rw [index_zero, Nat.zero_min]
  | succ offset ih =>
      by_cases nonempty : list = []
      · rw [nonempty, index_nil, List.length_nil, Nat.min_zero]
      · obtain ⟨one, singleLater⟩ := split.width_of_count_eq_length nonempty single
        have height := List.length_pos_of_ne_nil nonempty
        rw [split.index_of_ne_nil nonempty (Nat.succ_ne_zero _), one,
          Nat.succ_sub_one, ih (one ▸ singleLater), List.length_drop]
        omega

/-- Items that are pieces of their own, before the rest of a list. -/
theorem count_of_ones (n : Nat) (list : List α) (enough : n ≤ list.length)
    (ones : ∀ i < n, split.width (list.drop i) = 1) :
    split.count list = n + split.count (list.drop n) := by
  induction n generalizing list with
  | zero => rw [Nat.zero_add, List.drop_zero]
  | succ n ih =>
      have nonempty : list ≠ [] := List.ne_nil_of_length_pos (Nat.lt_of_lt_of_le (Nat.succ_pos n) enough)
      have one : split.width list = 1 := ones 0 (Nat.succ_pos n)
      have later := @ih (list.drop 1) (by rw [List.length_drop]; omega) (by
        intro i below
        rw [List.drop_drop, Nat.add_comm]
        exact ones (i + 1) (Nat.succ_lt_succ below))
      rw [split.count_of_ne_nil nonempty, one, later, List.drop_drop, Nat.add_comm 1 n]
      omega

theorem advance_of_ones (n : Nat) (list : List α) (enough : n ≤ list.length)
    (ones : ∀ i < n, split.width (list.drop i) = 1) : split.advance n list = n := by
  induction n generalizing list with
  | zero => exact split.advance_zero list
  | succ n ih =>
      have nonempty : list ≠ [] := List.ne_nil_of_length_pos (Nat.lt_of_lt_of_le (Nat.succ_pos n) enough)
      have one : split.width list = 1 := ones 0 (Nat.succ_pos n)
      have later := @ih (list.drop 1) (by rw [List.length_drop]; omega) (by
        intro i below
        rw [List.drop_drop, Nat.add_comm]
        exact ones (i + 1) (Nat.succ_lt_succ below))
      rw [split.advance_succ nonempty, one, later, Nat.add_comm]

theorem index_of_ones (n : Nat) (list : List α) (enough : n ≤ list.length)
    (ones : ∀ i < n, split.width (list.drop i) = 1) : split.index list n = n := by
  have counted := split.count_of_ones n list enough ones
  have all : n ≤ split.count list := by omega
  have reached := split.index_advance all
  rwa [split.advance_of_ones n list enough ones] at reached

theorem count_take_of_cut {n : Nat} {list : List α} (nonempty : list ≠ []) (inside : 0 < n)
    (ends : n < split.width list) : split.count (list.take n) = n := by
  have fits := split.fits nonempty
  have height : (list.take n).length = n := by
    rw [List.length_take]
    omega
  have counted := split.count_of_ones n (list.take n) (Nat.le_of_eq height.symm) (by
    intro i below
    rcases Nat.eq_zero_or_pos i with atStart | behind
    · rw [atStart, List.drop_zero]
      exact split.cut inside ends
    · have one := split.inner behind (Nat.lt_trans below ends)
      rw [List.drop_take]
      exact (split.whole (by omega)).trans one)
  rw [counted, List.drop_of_length_le (Nat.le_of_eq height), count_nil, Nat.add_zero]

theorem count_drop_of_cut {n : Nat} {list : List α} (nonempty : list ≠ []) (inside : 0 < n)
    (ends : n < split.width list) :
    split.count (list.drop n) = split.width list - n + split.count (list.drop (split.width list)) := by
  have fits := split.fits nonempty
  have counted := split.count_of_ones (split.width list - n) (list.drop n)
    (by rw [List.length_drop]; omega) (by
      intro i below
      rw [List.drop_drop]
      exact split.inner (by omega) (by omega))
  rw [counted, List.drop_drop, Nat.add_sub_cancel' (Nat.le_of_lt ends)]

/-- Whether a piece straddles two lists is seen behind the first piece. -/
theorem straddles_drop {first second : List α}
    (within : split.width (first ++ second) ≤ first.length) :
    split.Straddles first second ↔
      split.Straddles (first.drop (split.width (first ++ second))) second := by
  have later (i : Nat) : (first.drop (split.width (first ++ second)) ++ second).drop i =
      (first ++ second).drop (i + split.width (first ++ second)) := by
    rw [← List.drop_append_of_le_length within, List.drop_drop, Nat.add_comm]
  have inner {n : Nat} := @Segmentation.inner _ split (first ++ second) n
  constructor
  · rintro ⟨i, below, past⟩
    have behind : split.width (first ++ second) ≤ i := by
      by_contra inside
      rcases Nat.eq_zero_or_pos i with atStart | after
      · rw [atStart, List.drop_zero] at past
        omega
      · rw [inner after (Nat.lt_of_not_le inside)] at past
        omega
    refine ⟨i - split.width (first ++ second), ?_, ?_⟩
    · rw [List.length_drop]
      omega
    · rw [later, Nat.sub_add_cancel behind, List.length_drop]
      omega
  · rintro ⟨i, below, past⟩
    rw [List.length_drop] at below past
    rw [later] at past
    exact ⟨i + split.width (first ++ second), by omega, by omega⟩

/-- The pieces of two lists together are those of each, unless one straddles them: then
there are fewer. -/
theorem count_append (first second : List α) :
    (¬ split.Straddles first second →
      split.count (first ++ second) = split.count first + split.count second) ∧
    (split.Straddles first second →
      split.count (first ++ second) < split.count first + split.count second) := by
  induction first using split.piecewise with
  | nil =>
      rw [List.nil_append, count_nil, Nat.zero_add]
      exact ⟨fun _ => rfl, fun ⟨i, below, _⟩ => absurd below (Nat.not_lt_zero i)⟩
  | piece first nonempty ih =>
      have height := List.length_pos_of_ne_nil nonempty
      have both : first ++ second ≠ [] := List.append_ne_nil_of_left_ne_nil nonempty second
      by_cases within : split.width (first ++ second) ≤ first.length
      · have same : split.width first = split.width (first ++ second) := by
          have taken := split.whole within
          rwa [List.take_left] at taken
        rw [split.straddles_drop within, ← same, split.count_of_ne_nil both, split.count_of_ne_nil nonempty, ← same,
          List.drop_append_of_le_length (same ▸ within), Nat.add_right_comm]
        exact ⟨fun apart => congrArg (· + 1) (ih.1 apart),
          fun joined => Nat.succ_lt_succ (ih.2 joined)⟩
      · have ends := Nat.lt_of_not_le within
        have left := split.count_take_of_cut both height ends
        have right := split.count_drop_of_cut both height ends
        rw [List.take_left] at left
        rw [List.drop_left] at right
        constructor
        · intro apart
          exact absurd ⟨0, height, by rw [List.drop_zero, Nat.zero_add]; exact ends⟩ apart
        · intro _
          rw [split.count_of_ne_nil both, left, right]
          omega

end Segmentation

end Rayzor.Library
