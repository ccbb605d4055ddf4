import Mathlib

/-!
Contract: relations without a cycle.

Owns: what it is for a relation to have no cycle, that among finitely many elements one then
leads to none of the others, and lists in which each element stands behind all it needs.
-/

namespace Rayzor.Library

universe u

variable {ι : Type u} {edge : ι → ι → Prop}

/-- No element leads back to itself. -/
def Acyclic (edge : ι → ι → Prop) : Prop := ∀ node, ¬Relation.TransGen edge node node

theorem Acyclic.exists_last (acyclic : Acyclic edge) {nodes : List ι} (some : nodes ≠ []) :
    ∃ node ∈ nodes, ∀ next ∈ nodes, ¬edge node next := by
  let beyond : {node // node ∈ nodes} → {node // node ∈ nodes} → Prop :=
    fun left right => Relation.TransGen edge right left
  have transitive : IsTrans _ beyond := ⟨fun _ _ _ first second => second.trans first⟩
  have irreflexive : Std.Irrefl beyond := ⟨fun node => acyclic node⟩
  have finite : Finite {node // node ∈ nodes} := (List.finite_toSet nodes).to_subtype
  have wellFounded := Finite.wellFounded_of_trans_of_irrefl beyond
  obtain ⟨head, rest, rfl⟩ := List.exists_cons_of_ne_nil some
  obtain ⟨last, -, isLast⟩ := wellFounded.has_min Set.univ ⟨⟨head, List.mem_cons_self⟩, trivial⟩
  refine ⟨last, last.2, fun next member along => ?_⟩
  exact isLast ⟨next, member⟩ trivial (.single along)

/-- A relation that goes down in rank has no cycle. -/
theorem Acyclic.of_rank (rank : ι → Nat)
    (falls : ∀ node next, edge node next → rank next < rank node) : Acyclic edge := by
  have below : ∀ node next, Relation.TransGen edge node next → rank next < rank node := by
    intro node next path
    induction path with
    | single along => exact falls _ _ along
    | tail _ along ih => exact (falls _ _ along).trans ih
  exact fun node path => lt_irrefl _ (below node node path)

/-- Where finitely many elements lead on, a relation without a cycle is well-founded. -/
theorem Acyclic.wellFounded (acyclic : Acyclic edge) (nodes : List ι)
    (leads : ∀ node next, edge node next → node ∈ nodes) :
    WellFounded fun next node => edge node next := by
  classical
  rw [WellFounded.wellFounded_iff_has_min]
  rintro members ⟨member, isMember⟩
  by_cases inside : members ⊆ {node | node ∈ nodes}
  · have some : nodes.filter (· ∈ members) ≠ [] :=
      List.ne_nil_of_mem (List.mem_filter.mpr ⟨inside isMember, decide_eq_true isMember⟩)
    obtain ⟨last, isLast, leadsNowhere⟩ := acyclic.exists_last some
    refine ⟨last, of_decide_eq_true (List.mem_filter.mp isLast).2, fun next isNext along => ?_⟩
    exact leadsNowhere next
      (List.mem_filter.mpr ⟨inside isNext, decide_eq_true isNext⟩) along
  · obtain ⟨outside, isMember, notListed⟩ := Set.not_subset.mp inside
    exact ⟨outside, isMember, fun next _ along => notListed (leads outside next along)⟩

/-- Each element of the list stands behind all it needs. -/
def Layered (needs : ι → ι → Prop) (order : List ι) : Prop :=
  ∀ front node back, order = front ++ node :: back → ∀ other, needs node other → other ∈ front

namespace Layered

variable {needs : ι → ι → Prop} {order : List ι} {node : ι}

theorem nil : Layered needs [] := by
  intro front node back split
  simp at split

theorem concat (layered : Layered needs order) (behind : ∀ other, needs node other → other ∈ order) :
    Layered needs (order ++ [node]) := by
  intro front last back split other need
  rcases List.append_eq_append_iff.mp split with ⟨middle, shape, rest⟩ | ⟨middle, shape, rest⟩
  · cases middle with
    | nil =>
        rw [List.nil_append, List.cons.injEq] at rest
        rw [shape, List.append_nil]
        exact behind other (rest.1 ▸ need)
    | cons first middle =>
        rw [List.cons_append] at rest
        have impossible := (List.cons.inj rest).2
        simp at impossible
  · cases middle with
    | nil =>
        rw [List.nil_append, List.cons.injEq] at rest
        rw [List.append_nil] at shape
        rw [← shape]
        exact behind other (rest.1.symm ▸ need)
    | cons first middle =>
        rw [List.cons_append, List.cons.injEq] at rest
        exact layered front last middle (by rw [shape, rest.1]) other need

/-- What an element of the list needs has a smaller index. -/
theorem precedes [DecidableEq ι] (layered : Layered needs order) (member : node ∈ order) {other : ι}
    (need : needs node other) : other ∈ order ∧ order.idxOf other < order.idxOf node := by
  have inside := List.idxOf_lt_length_of_mem member
  have split : order = order.take (order.idxOf node) ++
      node :: order.drop (order.idxOf node + 1) := by
    conv_lhs => rw [← List.take_append_drop (order.idxOf node) order,
      List.drop_eq_getElem_cons inside, List.getElem_idxOf]
  have inFront := layered _ node _ split other need
  have member' := List.mem_of_mem_take inFront
  exact ⟨member', (List.mem_take_iff_idxOf_lt member').mp inFront⟩

/-- So is all that leads to it. -/
theorem precedes_of_path [DecidableEq ι] (layered : Layered needs order) {first last : ι}
    (path : Relation.TransGen needs first last) (member : first ∈ order) :
    last ∈ order ∧ order.idxOf last < order.idxOf first := by
  induction path with
  | single need => exact layered.precedes member need
  | tail _ need ih =>
      obtain ⟨isListed, below⟩ := ih
      obtain ⟨isListed', below'⟩ := layered.precedes isListed need
      exact ⟨isListed', below'.trans below⟩

/-- No element of the list is on a cycle. -/
theorem irreflexive [DecidableEq ι] (layered : Layered needs order) (member : node ∈ order) :
    ¬Relation.TransGen needs node node :=
  fun around => lt_irrefl _ (layered.precedes_of_path around member).2

end Layered

end Rayzor.Library
