import Mathlib

/-!
Contract: depth-first search from one node, with the order in which nodes are
finished.

Owns: the search, that it finishes every node reachable from its start exactly
once, and that in reverse postorder every node but the first comes after one
of its predecessors.

Does not own: any use of the order. The graph is a function from a node to the
list of its successors, closed on some finite list of nodes.
-/

namespace Rayzor.Library

universe u

variable {ι : Type u}

structure Search (ι : Type u) where
  visited : List ι
  postorder : List ι

/-- Visit `node` and everything not yet visited below it. `fuel` bounds the
depth of the recursion. -/
def dfs [DecidableEq ι] (successors : ι → List ι) : Nat → ι → Search ι → Search ι
  | 0, _, search => search
  | fuel + 1, node, search =>
      if node ∈ search.visited then search
      else
        let below := (successors node).foldl
          (fun search successor => dfs successors fuel successor search)
          { search with visited := node :: search.visited }
        { below with postorder := below.postorder ++ [node] }

namespace DepthFirst

variable {successors : ι → List ι}

/-- Each node of the list is a root or a successor of a node after it. -/
inductive Parented (successors : ι → List ι) (roots : List ι) : List ι → Prop where
  | nil : Parented successors roots []
  | cons {node : ι} {later : List ι}
      (parent : node ∈ roots ∨ ∃ parent ∈ later, node ∈ successors parent)
      (rest : Parented successors roots later) : Parented successors roots (node :: later)

theorem Parented.append {roots first second : List ι} (left : Parented successors roots first)
    (right : Parented successors roots second) : Parented successors roots (first ++ second) := by
  induction left with
  | nil => exact right
  | cons parent _ ih =>
      refine .cons ?_ ih
      rcases parent with isRoot | ⟨parent, member, edge⟩
      · exact Or.inl isRoot
      · exact Or.inr ⟨parent, List.mem_append_left _ member, edge⟩

theorem Parented.mono {roots roots' list : List ι} (parented : Parented successors roots list)
    (within : roots ⊆ roots') : Parented successors roots' list := by
  induction parented with
  | nil => exact .nil
  | cons parent _ ih =>
      exact .cons (parent.imp_left fun isRoot => within isRoot) ih

/-- What finishing the nodes below `node` gives once `node` itself is finished. -/
theorem Parented.finish {list : List ι} {node : ι}
    (below : Parented successors (successors node) list) :
    Parented successors [node] (list ++ [node]) := by
  induction below with
  | nil => exact .cons (Or.inl (List.mem_singleton_self node)) .nil
  | cons parent _ ih =>
      refine .cons (Or.inr ?_) ih
      rcases parent with isRoot | ⟨parent, member, edge⟩
      · exact ⟨node, List.mem_append_right _ (List.mem_singleton_self node), isRoot⟩
      · exact ⟨parent, List.mem_append_left _ member, edge⟩

theorem Parented.split {roots front later : List ι} {node : ι}
    (parented : Parented successors roots (front ++ node :: later)) :
    node ∈ roots ∨ ∃ parent ∈ later, node ∈ successors parent := by
  induction front with
  | nil =>
      cases parented with
      | cons parent _ => exact parent
  | cons _ _ ih =>
      cases parented with
      | cons _ rest => exact ih rest

structure Extends (successors : ι → List ι) (roots : List ι) (before after : Search ι)
    (added : List ι) : Prop where
  postorder : after.postorder = before.postorder ++ added
  visited : ∀ node, node ∈ after.visited ↔ node ∈ before.visited ∨ node ∈ added
  fresh : ∀ node ∈ added, node ∉ before.visited
  nodup : added.Nodup
  rooted : ∀ node ∈ roots, node ∈ after.visited
  closed : ∀ node ∈ added, ∀ successor ∈ successors node, successor ∈ after.visited
  parented : Parented successors roots added

theorem Extends.none (search : Search ι) : Extends successors [] search search [] where
  postorder := (List.append_nil _).symm
  visited := by simp
  fresh := by simp
  nodup := List.nodup_nil
  rooted := by simp
  closed := by simp
  parented := .nil

theorem Extends.of_visited {before : Search ι} {node : ι} (visited : node ∈ before.visited) :
    Extends successors [node] before before [] where
  postorder := (List.append_nil _).symm
  visited := by simp
  fresh := by simp
  nodup := List.nodup_nil
  rooted := by simpa using visited
  closed := by simp
  parented := .nil

theorem Extends.append {roots roots' added added' : List ι} {before middle after : Search ι}
    (first : Extends successors roots before middle added)
    (second : Extends successors roots' middle after added') :
    Extends successors (roots ++ roots') before after (added ++ added') where
  postorder := by rw [second.postorder, first.postorder, List.append_assoc]
  visited node := by rw [second.visited, first.visited, List.mem_append, or_assoc]
  fresh := by
    intro node member visited
    rcases List.mem_append.mp member with early | late
    · exact first.fresh node early visited
    · exact second.fresh node late ((first.visited node).mpr (Or.inl visited))
  nodup := by
    refine List.nodup_append.mpr ⟨first.nodup, second.nodup, ?_⟩
    rintro node early other late rfl
    exact second.fresh node late ((first.visited node).mpr (Or.inr early))
  rooted := by
    intro node member
    rcases List.mem_append.mp member with early | late
    · exact (second.visited node).mpr (Or.inl (first.rooted node early))
    · exact second.rooted node late
  closed := by
    intro node member successor edge
    rcases List.mem_append.mp member with early | late
    · exact (second.visited successor).mpr (Or.inl (first.closed node early successor edge))
    · exact second.closed node late successor edge
  parented := (first.parented.mono (List.subset_append_left _ _)).append
    (second.parented.mono (List.subset_append_right _ _))

section Run

variable [DecidableEq ι]

def unvisited (nodes visited : List ι) : Nat := (nodes.filter (· ∉ visited)).length

theorem unvisited_cons_lt {nodes visited : List ι} {node : ι} (member : node ∈ nodes)
    (fresh : node ∉ visited) : unvisited nodes (node :: visited) < unvisited nodes visited := by
  have split : nodes.filter (· ∉ node :: visited) =
      (nodes.filter (· ∉ visited)).filter (· ≠ node) := by
    rw [List.filter_filter]
    refine List.filter_congr fun other _ => ?_
    simp
  unfold unvisited
  rw [split, List.length_filter_lt_length_iff_exists]
  exact ⟨node, List.mem_filter.mpr ⟨member, by simpa using fresh⟩, by simp⟩

theorem unvisited_le {nodes visited visited' : List ι} (grown : visited ⊆ visited') :
    unvisited nodes visited' ≤ unvisited nodes visited := by
  refine (List.monotone_filter_right nodes ?_).length_le
  intro node
  simp only [decide_eq_true_eq]
  exact fun outside inside => outside (grown inside)

variable {nodes : List ι} (closed : ∀ node ∈ nodes, ∀ successor ∈ successors node,
  successor ∈ nodes)
include closed

theorem extends_dfs {fuel : Nat} {node : ι} {search : Search ι} (member : node ∈ nodes)
    (enough : unvisited nodes search.visited < fuel) :
    ∃ added, Extends successors [node] search (dfs successors fuel node search) added := by
  induction fuel generalizing node search with
  | zero => exact absurd enough (Nat.not_lt_zero _)
  | succ fuel ih =>
    unfold dfs
    split_ifs with visited
    · exact ⟨[], .of_visited visited⟩
    · have below : ∀ (roots : List ι) (search : Search ι), roots ⊆ nodes →
          unvisited nodes search.visited < fuel →
          ∃ added, Extends successors roots search
            (roots.foldl (fun search successor => dfs successors fuel successor search) search)
            added := by
        intro roots
        induction roots with
        | nil =>
            intro search _ _
            exact ⟨[], .none search⟩
        | cons root rest restHypothesis =>
            intro search within enough
            obtain ⟨added, first⟩ :=
              ih (within List.mem_cons_self) enough
            have grown : search.visited ⊆ (dfs successors fuel root search).visited :=
              fun node visited => (first.visited node).mpr (Or.inl visited)
            obtain ⟨added', second⟩ := restHypothesis (dfs successors fuel root search)
              (fun node inside => within (List.mem_cons_of_mem _ inside))
              (Nat.lt_of_le_of_lt (unvisited_le grown) enough)
            exact ⟨added ++ added', first.append second⟩
      have less := unvisited_cons_lt member visited
      obtain ⟨added, finished⟩ := below (successors node)
        { search with visited := node :: search.visited } (closed node member) (by
          simp only
          omega)
      refine ⟨added ++ [node], ?_⟩
      exact {
        postorder := by
          simp only
          rw [finished.postorder, List.append_assoc]
        visited := by
          intro other
          simp only [finished.visited, List.mem_cons, List.mem_append]
          tauto
        fresh := by
          intro other inside
          rcases List.mem_append.mp inside with early | last
          · exact fun seen => finished.fresh other early (List.mem_cons_of_mem _ seen)
          · rwa [List.mem_singleton.mp last]
        nodup := by
          refine List.nodup_append.mpr ⟨finished.nodup, List.nodup_singleton node, ?_⟩
          rintro other early last isLast rfl
          rw [List.mem_singleton.mp isLast] at early
          exact finished.fresh node early List.mem_cons_self
        rooted := by
          intro other isNode
          rw [List.mem_singleton.mp isNode]
          exact (finished.visited node).mpr (Or.inl List.mem_cons_self)
        closed := by
          intro other inside successor edge
          rcases List.mem_append.mp inside with early | last
          · exact finished.closed other early successor edge
          · rw [List.mem_singleton.mp last] at edge
            exact finished.rooted successor edge
        parented := finished.parented.finish }

/-- The search from nothing: its postorder lists exactly what it has visited. -/
theorem extends_dfs_start {start : ι} (member : start ∈ nodes) :
    Extends successors [start] ⟨[], []⟩ (dfs successors (nodes.length + 1) start ⟨[], []⟩)
      (dfs successors (nodes.length + 1) start ⟨[], []⟩).postorder := by
  obtain ⟨added, finished⟩ := extends_dfs closed member
    (Nat.lt_succ_of_le (List.length_filter_le _ _))
  have all : (dfs successors (nodes.length + 1) start ⟨[], []⟩).postorder = added := by
    rw [finished.postorder, List.nil_append]
  rwa [all]

end Run

end DepthFirst

end Rayzor.Library
