import Mathlib

/-!
Contract: what a worklist finds when it takes nodes off a stack until none is
left.

Owns: the loop with a bound on its steps, that the bound is enough on a finite
graph, that the nodes found are those reachable from the stack, and the same
loop with an effect for each node.

Does not own: the graph. It is a function from a node to the list of its
successors, empty outside some finite list of nodes.
-/

namespace Rayzor.Library

universe u

variable {ι : Type u} [DecidableEq ι]

/-- Take a node off the stack. One that was not found before is found now, and
its successors go on the stack. -/
def explore (successors : ι → List ι) : Nat → List ι → List ι → List ι
  | 0, _, found => found
  | _ + 1, [], found => found
  | fuel + 1, node :: stack, found =>
      if node ∈ found then explore successors fuel stack found
      else explore successors fuel ((successors node).reverse ++ stack) (node :: found)

/-- The same loop with an effect on a state for each node found. -/
def exploreWith {σ : Type*} (successors : ι → List ι) (visit : σ → ι → σ) :
    Nat → List ι → List ι × σ → List ι × σ
  | 0, _, state => state
  | _ + 1, [], state => state
  | fuel + 1, node :: stack, state =>
      if node ∈ state.1 then exploreWith successors visit fuel stack state
      else exploreWith successors visit fuel ((successors node).reverse ++ stack)
        (node :: state.1, visit state.2 node)

namespace Worklist

variable {successors : ι → List ι} {nodes : List ι}

/-- One edge of the graph. -/
def Follows (successors : ι → List ι) (node next : ι) : Prop := next ∈ successors node

/-- The steps the loop can still take: what is on the stack, and what the nodes
not found yet may put there. -/
def remaining (successors : ι → List ι) (nodes stack found : List ι) : Nat :=
  stack.length + ((nodes.filter (· ∉ found)).map fun node => (successors node).length).sum

/-- What the loop ends with, from a given stack and the nodes found so far. -/
structure Explored (successors : ι → List ι) (stack found final : List ι) : Prop where
  kept : found ⊆ final
  stacked : stack ⊆ final
  closed : ∀ node ∈ final, node ∉ found → ∀ next ∈ successors node, next ∈ final
  sound : ∀ node ∈ final, node ∈ found ∨
    ∃ root ∈ stack, Relation.ReflTransGen (Follows successors) root node

theorem sum_filter_cons {node : ι} {found : List ι} (distinct : nodes.Nodup)
    (listed : node ∈ nodes) (fresh : node ∉ found) (weight : ι → Nat) :
    ((nodes.filter (· ∉ found)).map weight).sum =
      weight node + ((nodes.filter (· ∉ node :: found)).map weight).sum := by
  have perm : (nodes.filter (· ∉ found)).Perm (node :: nodes.filter (· ∉ node :: found)) := by
    rw [List.perm_ext_iff_of_nodup (distinct.filter _)]
    · intro other
      simp only [List.mem_filter, List.mem_cons, decide_eq_true_eq, not_or]
      by_cases same : other = node
      · subst same
        simp [listed, fresh]
      · simp [same]
    · refine List.nodup_cons.mpr ⟨?_, distinct.filter _⟩
      simp
  rw [(perm.map weight).sum_eq, List.map_cons, List.sum_cons]

theorem remaining_found {node : ι} (stack : List ι) {found : List ι} (distinct : nodes.Nodup)
    (outside : ∀ node ∉ nodes, successors node = []) (fresh : node ∉ found) :
    remaining successors nodes ((successors node).reverse ++ stack) (node :: found) + 1 ≤
      remaining successors nodes (node :: stack) found := by
  unfold remaining
  rw [List.length_append, List.length_reverse, List.length_cons]
  by_cases listed : node ∈ nodes
  · rw [sum_filter_cons distinct listed fresh]
    omega
  · rw [outside node listed]
    have same : nodes.filter (· ∉ node :: found) = nodes.filter (· ∉ found) := by
      refine List.filter_congr fun other member => ?_
      have different : other ≠ node := fun same => listed (same ▸ member)
      simp [different]
    rw [same]
    simp only [List.length_nil]
    omega

theorem explored (distinct : nodes.Nodup) (outside : ∀ node ∉ nodes, successors node = [])
    {fuel : Nat} {stack found : List ι}
    (enough : remaining successors nodes stack found < fuel) :
    Explored successors stack found (explore successors fuel stack found) := by
  induction fuel generalizing stack found with
  | zero => omega
  | succ fuel ih =>
      cases stack with
      | nil =>
          exact ⟨List.Subset.refl _, List.nil_subset _,
            fun node member fresh => absurd member fresh, fun node member => Or.inl member⟩
      | cons node stack =>
          unfold explore
          split_ifs with again
          · have fewer : remaining successors nodes stack found < fuel := by
              unfold remaining at enough ⊢
              rw [List.length_cons] at enough
              omega
            obtain ⟨kept, stacked, closed, sound⟩ := ih fewer
            refine ⟨kept, List.cons_subset.mpr ⟨kept again, stacked⟩, closed, ?_⟩
            intro other member
            rcases sound other member with before | ⟨root, onStack, path⟩
            · exact Or.inl before
            · exact Or.inr ⟨root, List.mem_cons_of_mem _ onStack, path⟩
          · have step := remaining_found stack distinct outside again
            have fewer : remaining successors nodes ((successors node).reverse ++ stack)
                (node :: found) < fuel := by
              omega
            obtain ⟨kept, stacked, closed, sound⟩ := ih fewer
            rw [List.append_subset] at stacked
            rw [List.cons_subset] at kept
            refine ⟨kept.2, List.cons_subset.mpr ⟨kept.1, stacked.2⟩, ?_, ?_⟩
            · intro other member fresh next follows
              by_cases same : other = node
              · subst same
                exact stacked.1 (List.mem_reverse.mpr follows)
              · exact closed other member (by simp [same, fresh]) next follows
            · intro other member
              rcases sound other member with before | ⟨root, onStack, path⟩
              · rcases List.mem_cons.mp before with rfl | before
                · exact Or.inr ⟨other, List.mem_cons_self, .refl⟩
                · exact Or.inl before
              · rcases List.mem_append.mp onStack with child | below
                · exact Or.inr ⟨node, List.mem_cons_self,
                    .head (List.mem_reverse.mp child) path⟩
                · exact Or.inr ⟨root, List.mem_cons_of_mem _ below, path⟩

/-- From an empty start the loop finds exactly what can be reached. -/
theorem mem_explore_iff (distinct : nodes.Nodup) (outside : ∀ node ∉ nodes, successors node = [])
    {fuel : Nat} {stack : List ι} (enough : remaining successors nodes stack [] < fuel)
    {node : ι} :
    node ∈ explore successors fuel stack [] ↔
      ∃ root ∈ stack, Relation.ReflTransGen (Follows successors) root node := by
  obtain ⟨-, stacked, closed, sound⟩ := explored distinct outside enough
  constructor
  · intro member
    exact (sound node member).resolve_left List.not_mem_nil
  · rintro ⟨root, onStack, path⟩
    induction path with
    | refl => exact stacked onStack
    | tail _ follows ih =>
        exact closed _ ih List.not_mem_nil _ follows

/-- The loop with effects finds what the loop without finds, and has the effects
of the nodes found on the way. -/
theorem exploreWith_spec {σ : Type*} (successors : ι → List ι) (visit : σ → ι → σ) (fuel : Nat) (stack : List ι)
    (state : List ι × σ) :
    ∃ fresh : List ι, (∀ node ∈ fresh, node ∉ state.1) ∧
      explore successors fuel stack state.1 = fresh.reverse ++ state.1 ∧
      exploreWith successors visit fuel stack state =
        (fresh.reverse ++ state.1, fresh.foldl visit state.2) := by
  induction fuel generalizing stack state with
  | zero => exact ⟨[], by simp, rfl, rfl⟩
  | succ fuel ih =>
      cases stack with
      | nil => exact ⟨[], by simp, rfl, rfl⟩
      | cons node stack =>
          unfold explore exploreWith
          split_ifs with again
          · exact ih stack state
          · obtain ⟨fresh, new, found, effects⟩ := ih
              ((successors node).reverse ++ stack) (node :: state.1, visit state.2 node)
            refine ⟨node :: fresh, ?_, by simpa using found, by simpa using effects⟩
            refine List.forall_mem_cons.mpr ⟨again, fun other member => ?_⟩
            exact fun before => new other member (List.mem_cons_of_mem _ before)

end Worklist

end Rayzor.Library
