import Mathlib.Data.List.Dedup
import Mathlib.Data.List.Perm.Subperm

/-!
Contract: passes over a list that add what follows, until one adds nothing.
-/

namespace Rayzor.Library.Saturation

variable {ι α : Type*} [DecidableEq α] (derive : List α → ι → Option α)

def add (found : List α) (item : ι) : List α :=
  match derive found item with
  | some value => if value ∈ found then found else value :: found
  | none => found

def pass (items : List ι) (found : List α) : List α := items.foldl (add derive) found

/-- Go over the items again as long as something was added. -/
def saturate (items : List ι) : Nat → List α → List α
  | 0, found => found
  | fuel + 1, found =>
      let next := pass derive items found
      if next.length = found.length then found else saturate items fuel next

/-- Nothing more follows. -/
def Closed (items : List ι) (found : List α) : Prop :=
  ∀ item ∈ items, ∀ value, derive found item = some value → value ∈ found

variable {items : List ι} {found : List α}

theorem add_cases (found : List α) (item : ι) :
    (add derive found item = found ∧ ∀ value, derive found item = some value → value ∈ found) ∨
      ∃ value ∉ found, derive found item = some value ∧ add derive found item = value :: found := by
  unfold add
  cases derived : derive found item with
  | none => simp
  | some value =>
      by_cases known : value ∈ found
      · simp [known]
      · simp [known]

theorem length_le_add (found : List α) (item : ι) :
    found.length ≤ (add derive found item).length := by
  rcases add_cases derive found item with ⟨same, -⟩ | ⟨value, -, -, more⟩
  · exact Nat.le_of_eq (by rw [same])
  · rw [more]
    exact Nat.le_succ _

theorem length_le_pass (items : List ι) (found : List α) :
    found.length ≤ (pass derive items found).length := by
  induction items generalizing found with
  | nil => exact Nat.le_refl _
  | cons item rest ih =>
      exact Nat.le_trans (length_le_add derive found item) (ih _)

variable {derive}

theorem closed_of_length (same : (pass derive items found).length = found.length) :
    Closed derive items found := by
  induction items with
  | nil =>
      intro item member
      cases member
  | cons item rest ih =>
      have later := length_le_pass derive rest (add derive found item)
      have first := length_le_add derive found item
      have split : pass derive (item :: rest) found = pass derive rest (add derive found item) := rfl
      rw [split] at same
      rcases add_cases derive found item with ⟨unchanged, known⟩ | ⟨value, -, -, more⟩
      · rw [unchanged] at same
        exact List.forall_mem_cons.mpr ⟨known, ih same⟩
      · rw [more, List.length_cons] at later
        rw [more] at same
        omega

section Bound

variable {result : ι → Option α}
  (named : ∀ found item value, derive found item = some value → result item = some value)

include named

theorem pass_within {all : List α} (items : List ι) (results : items.filterMap result ⊆ all)
    (distinct : found.Nodup) (within : found ⊆ all) :
    (pass derive items found).Nodup ∧ pass derive items found ⊆ all := by
  induction items generalizing found with
  | nil => exact ⟨distinct, within⟩
  | cons item rest ih =>
      have ofRest : rest.filterMap result ⊆ all := fun value member =>
        results (List.mem_filterMap.mpr (by
          obtain ⟨other, inRest, gives⟩ := List.mem_filterMap.mp member
          exact ⟨other, List.mem_cons_of_mem _ inRest, gives⟩))
      have step : (add derive found item).Nodup ∧ add derive found item ⊆ all := by
        rcases add_cases derive found item with ⟨same, -⟩ | ⟨value, new, derived, more⟩
        · rw [same]
          exact ⟨distinct, within⟩
        · rw [more]
          have inAll : value ∈ all :=
            results (List.mem_filterMap.mpr ⟨item, List.mem_cons_self, named _ _ _ derived⟩)
          exact ⟨List.nodup_cons.mpr ⟨new, distinct⟩, List.cons_subset.mpr ⟨inAll, within⟩⟩
      exact ih ofRest step.1 step.2

theorem closed_saturate_of_bound {all : List α} (results : items.filterMap result ⊆ all) {fuel : Nat}
    (distinct : found.Nodup) (within : found ⊆ all) (enough : all.length < found.length + fuel) :
    Closed derive items (saturate derive items fuel found) := by
  induction fuel generalizing found with
  | zero =>
      have most : found.length ≤ all.length := (distinct.subperm within).length_le
      omega
  | succ fuel ih =>
      unfold saturate
      by_cases same : (pass derive items found).length = found.length
      · rw [if_pos same]
        exact closed_of_length same
      · rw [if_neg same]
        have grown := length_le_pass derive items found
        have next := pass_within named items results distinct within
        exact ih next.1 next.2 (by omega)

/-- One pass more than there are items is enough. -/
theorem closed_saturate (distinct : found.Nodup) :
    Closed derive items (saturate derive items (items.length + 1) found) := by
  have results := List.length_filterMap_le result items
  have room : (found ++ items.filterMap result).length < found.length + (items.length + 1) := by
    rw [List.length_append]
    omega
  exact closed_saturate_of_bound named (List.subset_append_right found _) distinct
    (List.subset_append_left found _) room

end Bound

theorem subset_pass (items : List ι) (found : List α) : found ⊆ pass derive items found := by
  induction items generalizing found with
  | nil => exact List.Subset.refl _
  | cons item rest ih =>
      refine List.Subset.trans ?_ (ih _)
      rcases add_cases derive found item with ⟨same, -⟩ | ⟨value, -, -, more⟩
      · rw [same]
        exact List.Subset.refl _
      · rw [more]
        exact List.subset_cons_self _ _

theorem subset_saturate (items : List ι) (fuel : Nat) (found : List α) :
    found ⊆ saturate derive items fuel found := by
  induction fuel generalizing found with
  | zero => exact List.Subset.refl _
  | succ fuel ih =>
      unfold saturate
      by_cases same : (pass derive items found).length = found.length
      · rw [if_pos same]
        exact List.Subset.refl _
      · rw [if_neg same]
        exact List.Subset.trans (subset_pass items found) (ih _)

end Rayzor.Library.Saturation
