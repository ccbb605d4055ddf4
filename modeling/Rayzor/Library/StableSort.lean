import Mathlib

/-!
Contract: stable sorting by a comparison that answers with a sign.

Owns: what makes such a comparison consistent, what a stable sorted rearrangement is, and
insertion from the right, which keeps one.
-/

namespace Rayzor.Library

universe u

variable {α : Type u} {compare : α → α → Int}

/-- A comparison by sign that orders its arguments: negative below, zero beside, positive
above. -/
structure Consistent (compare : α → α → Int) : Prop where
  reversed : ∀ first second, compare first second < 0 ↔ 0 < compare second first
  transitive : ∀ first second third, compare first second ≤ 0 → compare second third ≤ 0 →
    compare first third ≤ 0

/-- `sorted` rearranges `list` in order, and elements that compare equal keep theirs. -/
structure StablySorts (compare : α → α → Int) (list sorted : List α) : Prop where
  rearranged : sorted.Perm list
  ordered : sorted.Pairwise fun first second => compare first second ≤ 0
  stable : ∀ element, (sorted.filter fun other => compare element other = 0) =
    list.filter fun other => compare element other = 0

theorem StablySorts.nil : StablySorts compare [] [] :=
  ⟨.nil, .nil, fun _ => rfl⟩

theorem StablySorts.singleton (element : α) : StablySorts compare [element] [element] :=
  ⟨.refl _, List.pairwise_singleton _ _, fun _ => rfl⟩

def above (compare : α → α → Int) (key : α) (list : List α) : List α :=
  list.rtakeWhile fun element => 0 < compare element key

/-- What is left of them -/
def upTo (compare : α → α → Int) (key : α) (list : List α) : List α :=
  list.rdropWhile fun element => 0 < compare element key

/-- `key` goes before the elements above it at the right end. -/
def insertRight (compare : α → α → Int) (key : α) (list : List α) : List α :=
  upTo compare key list ++ key :: above compare key list

theorem upTo_append_above (compare : α → α → Int) (key : α) (list : List α) :
    upTo compare key list ++ above compare key list = list :=
  List.rdropWhile_append_rtakeWhile

theorem mem_above {key element : α} {list : List α} (member : element ∈ above compare key list) :
    0 < compare element key := by
  have holds := List.mem_rtakeWhile_imp member
  simpa using holds

theorem last_upTo {key : α} {list : List α} (nonempty : upTo compare key list ≠ []) :
    compare ((upTo compare key list).getLast nonempty) key ≤ 0 := by
  have holds := List.rdropWhile_last_not (fun element => decide (0 < compare element key)) list
    nonempty
  simpa [upTo] using holds

theorem length_insertRight (key : α) (list : List α) :
    (insertRight compare key list).length = list.length + 1 := by
  have lengths := congrArg List.length (upTo_append_above compare key list)
  simp only [List.length_append] at lengths
  simp only [insertRight, List.length_append, List.length_cons]
  omega

namespace Consistent

variable (consistent : Consistent compare)

include consistent

theorem zero_comm {first second : α} (equal : compare first second = 0) :
    compare second first = 0 := by
  have forward := consistent.reversed first second
  have backward := consistent.reversed second first
  omega

/-- In an ordered list everything that insertion leaves in place is at most the key. -/
theorem le_of_mem_upTo (key : α) {list : List α}
    (ordered : list.Pairwise fun first second => compare first second ≤ 0) :
    ∀ element ∈ upTo compare key list, compare element key ≤ 0 := by
  intro element member
  have nonempty : upTo compare key list ≠ [] := List.ne_nil_of_mem member
  have last := last_upTo nonempty
  have kept : (upTo compare key list).Pairwise fun first second => compare first second ≤ 0 :=
    ordered.sublist (List.rdropWhile_prefix _ _).sublist
  rw [← List.dropLast_append_getLast nonempty] at member kept
  rcases List.mem_append.mp member with before | isLast
  · have below := (List.pairwise_append.mp kept).2.2 element before _ (List.mem_singleton_self _)
    exact consistent.transitive _ _ _ below last
  · rw [List.mem_singleton.mp isLast]
    exact last

theorem ordered_insertRight {key : α} {list : List α}
    (ordered : list.Pairwise fun first second => compare first second ≤ 0) :
    (insertRight compare key list).Pairwise fun first second => compare first second ≤ 0 := by
  have below := consistent.le_of_mem_upTo key ordered
  rw [← upTo_append_above compare key list] at ordered
  have parts := List.pairwise_append.mp ordered
  apply List.pairwise_append.mpr
  refine ⟨parts.1, List.pairwise_cons.mpr ⟨fun element member => ?_, parts.2.1⟩, ?_⟩
  · have isAbove := mem_above member
    have lower := (consistent.reversed key element).mpr isAbove
    omega
  · intro element member other isOther
    rcases List.mem_cons.mp isOther with rfl | inAbove
    · exact below element member
    · exact parts.2.2 element member other inAbove

/-- The elements equal to a given one stay in order: those above the key are not among them
when the key is. -/
theorem filter_insertRight {key : α} (element : α) (list : List α) :
    ((insertRight compare key list).filter fun other => compare element other = 0) =
      (list ++ [key]).filter fun other => compare element other = 0 := by
  conv_rhs => rw [← upTo_append_above compare key list]
  simp only [insertRight, List.filter_append, List.filter_cons, List.filter_nil,
    List.append_assoc]
  congr 1
  by_cases equal : compare element key = 0
  · have others : (above compare key list).filter (fun other => compare element other = 0) = [] := by
      apply List.filter_eq_nil_iff.mpr
      intro other member
      have isAbove := mem_above member
      intro same
      have back := consistent.zero_comm (of_decide_eq_true same)
      have bounded := consistent.transitive other element key (by omega) (by omega)
      omega
    simp [others, equal]
  · simp [equal]

/-- Inserting the next element keeps a stable sorting of the elements seen so far. -/
theorem insertRight_sorts (key : α) {list sorted : List α}
    (sorts : StablySorts compare list sorted) :
    StablySorts compare (list ++ [key]) (insertRight compare key sorted) where
  rearranged := by
    have parts : sorted = upTo compare key sorted ++ above compare key sorted :=
      (upTo_append_above compare key sorted).symm
    calc insertRight compare key sorted
        _ = upTo compare key sorted ++ key :: above compare key sorted := rfl
        List.Perm _ (key :: (upTo compare key sorted ++ above compare key sorted)) :=
          List.perm_middle
        List.Perm _ (key :: list) := by
          rw [← parts]
          exact sorts.rearranged.cons key
        List.Perm _ (list ++ [key]) := (List.perm_append_singleton key list).symm
  ordered := consistent.ordered_insertRight sorts.ordered
  stable element := by
    rw [consistent.filter_insertRight, List.filter_append, List.filter_append, sorts.stable]

end Consistent

end Rayzor.Library
