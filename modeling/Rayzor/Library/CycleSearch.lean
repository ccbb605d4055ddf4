import Rayzor.Library.Acyclic
import Rayzor.Library.DepthFirst
import Rayzor.Library.Worklist

/-!
Contract: looking for cycles by depth-first search.

Owns: the search with the path to the node it is at, that it ends, that every cycle it reports
is one, and that it reports one exactly when the graph has one.

Does not own: the graph, and what a report says. The graph is a function from a node to the
list of its successors, closed on some finite list of nodes and empty outside of it.
-/

namespace Rayzor.Library

universe u v

variable {ι : Type u} [DecidableEq ι] {γ : Type v}

structure CycleSearch (ι : Type u) (γ : Type v) where
  visited : List ι
  recStack : List ι
  path : List ι
  cycles : List γ

namespace CycleSearch

def start : CycleSearch ι γ := ⟨[], [], [], []⟩

def enter (search : CycleSearch ι γ) (node : ι) : CycleSearch ι γ :=
  { search with
      visited := node :: search.visited
      recStack := node :: search.recStack
      path := search.path ++ [node] }

def leave (search : CycleSearch ι γ) (node : ι) : CycleSearch ι γ :=
  { search with
      path := search.path.dropLast
      recStack := search.recStack.filter (· ≠ node) }

def meet (detect : ι → CycleSearch ι γ → Option (CycleSearch ι γ)) (report : List ι → ι → γ)
    (search : CycleSearch ι γ) (neighbor : ι) : Option (CycleSearch ι γ) :=
  if neighbor ∉ search.visited then detect neighbor search
  else if neighbor ∈ search.recStack then
    (search.path.findIdx? (· = neighbor)).map fun first => { search with
      cycles := search.cycles ++ [report (search.path.drop first) neighbor] }
  else some search

end CycleSearch

/-- Visit a node and everything not visited below it. `fuel` bounds the depth of the recursion. -/
def detectCycles (successors : ι → List ι) (report : List ι → ι → γ) :
    Nat → ι → CycleSearch ι γ → Option (CycleSearch ι γ)
  | 0, _, _ => none
  | fuel + 1, node, search => do
      let below ← (successors node).foldlM
        (CycleSearch.meet (detectCycles successors report fuel) report) (search.enter node)
      pure (below.leave node)

def detectAll (successors : ι → List ι) (report : List ι → ι → γ) (nodes : List ι) :
    Option (CycleSearch ι γ) :=
  nodes.foldlM (fun search node =>
    if node ∉ search.visited then detectCycles successors report nodes.length node search
    else pure search) CycleSearch.start

namespace CycleSearch

open Worklist (Follows)
open DepthFirst (unvisited unvisited_cons_lt unvisited_le)

variable {successors : ι → List ι} {report : List ι → ι → γ} {search search' : CycleSearch ι γ}
  {done : List ι} {node : ι}

def ClosedBy (successors : ι → List ι) (path : List ι) (node : ι) : Prop :=
  path.head? = some node ∧ (path ++ [node]).IsChain (Follows successors)

/-- What is visited is done or on the path, and while nothing is reported, what is done has its
successors done before it. -/
structure Searching (successors : ι → List ι) (report : List ι → ι → γ)
    (search : CycleSearch ι γ) (done : List ι) : Prop where
  visited : ∀ node, node ∈ search.visited ↔ node ∈ done ∨ node ∈ search.path
  onStack : ∀ node, node ∈ search.recStack ↔ node ∈ search.path
  distinct : search.path.Nodup
  chain : search.path.IsChain (Follows successors)
  real : ∀ cycle ∈ search.cycles, ∃ path node, cycle = report path node ∧
    ClosedBy successors path node
  layered : search.cycles = [] → Layered (Follows successors) done

omit [DecidableEq ι] in
theorem searching_start : Searching successors report (start : CycleSearch ι γ) [] where
  visited node := by simp [start]
  onStack node := by simp [start]
  distinct := List.nodup_nil
  chain := List.isChain_nil
  real cycle member := by cases member
  layered _ := Layered.nil

/-- What a part of the search leaves: the path as it was, and nothing visited, done or reported
is lost. -/
structure Advanced (search search' : CycleSearch ι γ) (done done' : List ι) : Prop where
  path : search'.path = search.path
  done : done ⊆ done'
  visited : search.visited ⊆ search'.visited
  quiet : search'.cycles = [] → search.cycles = []

omit [DecidableEq ι] in
theorem Advanced.refl (search : CycleSearch ι γ) (done : List ι) :
    Advanced search search done done :=
  ⟨rfl, List.Subset.refl _, List.Subset.refl _, fun quiet => quiet⟩

omit [DecidableEq ι] in
theorem Advanced.trans {search'' : CycleSearch ι γ} {done' done'' : List ι}
    (first : Advanced search search' done done') (second : Advanced search' search'' done' done'') :
    Advanced search search'' done done'' :=
  ⟨second.path.trans first.path, List.Subset.trans first.done second.done,
    List.Subset.trans first.visited second.visited,
    fun quiet => first.quiet (second.quiet quiet)⟩

theorem Searching.close (searching : Searching successors report search done) {front : List ι}
    (here : search.path = front ++ [node]) {neighbor : ι} (follows : neighbor ∈ successors node)
    (onStack : neighbor ∈ search.recStack) :
    ∃ first, search.path.findIdx? (· = neighbor) = some first ∧
      Searching successors report
        { search with cycles := search.cycles ++ [report (search.path.drop first) neighbor] }
        done := by
  have onPath := (searching.onStack neighbor).mp onStack
  obtain ⟨first, found⟩ : ∃ first, search.path.findIdx? (· = neighbor) = some first := by
    cases found : search.path.findIdx? (· = neighbor) with
    | some first => exact ⟨first, rfl⟩
    | none =>
        have differs := List.findIdx?_eq_none_iff.mp found neighbor onPath
        simp at differs
  obtain ⟨inside, isNeighbor, -⟩ := List.findIdx?_eq_some_iff_getElem.mp found
  have same : search.path[first] = neighbor := of_decide_eq_true isNeighbor
  have shape : search.path.drop first = neighbor :: search.path.drop (first + 1) := by
    rw [List.drop_eq_getElem_cons inside, same]
  refine ⟨first, found, ⟨searching.visited, searching.onStack, searching.distinct,
    searching.chain, ?_, ?_⟩⟩
  · intro cycle member
    rcases List.mem_append.mp member with before | last
    · exact searching.real cycle before
    · refine ⟨_, neighbor, List.mem_singleton.mp last, by rw [shape]; rfl, ?_⟩
      apply List.isChain_append.mpr
      refine ⟨searching.chain.drop first, List.isChain_singleton _, ?_⟩
      intro final isFinal next isNext
      have isNode : final = node := by
        rw [List.getLast?_drop, if_neg (by omega), here, List.getLast?_concat,
          Option.mem_some_iff] at isFinal
        exact isFinal.symm
      rw [List.head?_cons, Option.mem_some_iff] at isNext
      rw [isNode, ← isNext]
      exact follows
  · intro quiet
    simp at quiet

omit [DecidableEq ι] in
/-- Entering a node puts it on the path. -/
theorem Searching.enter (searching : Searching successors report search done)
    (fresh : node ∉ search.visited)
    (chain : (search.path ++ [node]).IsChain (Follows successors)) :
    Searching successors report (search.enter node) done where
  visited other := by
    simp only [CycleSearch.enter, List.mem_cons, searching.visited, List.mem_append]
    tauto
  onStack other := by
    simp only [CycleSearch.enter, List.mem_cons, searching.onStack, List.mem_append]
    tauto
  distinct := by
    apply List.nodup_append.mpr
    refine ⟨searching.distinct, List.nodup_singleton node, ?_⟩
    rintro other onPath last isNode rfl
    rw [List.mem_singleton.mp isNode] at onPath
    exact fresh ((searching.visited node).mpr (Or.inr onPath))
  chain := chain
  real := searching.real
  layered := searching.layered

theorem Searching.leave (searching : Searching successors report search done) {front : List ι}
    (here : search.path = front ++ [node])
    (below : search.cycles = [] → ∀ next ∈ successors node, next ∈ done) :
    Searching successors report (search.leave node) (done ++ [node]) where
  visited other := by
    simp only [CycleSearch.leave, searching.visited, here, List.dropLast_concat, List.mem_append,
      List.mem_singleton]
    tauto
  onStack other := by
    have distinct := searching.distinct
    rw [here] at distinct
    have notFront : node ∉ front := fun member =>
      (List.nodup_append.mp distinct).2.2 node member node (List.mem_singleton_self node) rfl
    simp only [CycleSearch.leave, List.mem_filter, searching.onStack, here, List.dropLast_concat,
      List.mem_append, List.mem_singleton, decide_eq_true_eq]
    constructor
    · rintro ⟨member | same, differs⟩
      · exact member
      · exact absurd same differs
    · intro member
      exact ⟨Or.inl member, fun same => notFront (same ▸ member)⟩
  distinct := by
    have distinct := searching.distinct
    exact distinct.sublist (List.dropLast_sublist _)
  chain := searching.chain.dropLast
  real := searching.real
  layered quiet := (searching.layered quiet).concat (below quiet)

section Run

variable {nodes : List ι} {fuel : Nat} {front : List ι}

def Detects (successors : ι → List ι) (report : List ι → ι → γ) (nodes : List ι) (limit : Nat)
    (detect : ι → CycleSearch ι γ → Option (CycleSearch ι γ)) : Prop :=
  ∀ node search done, node ∈ nodes → unvisited nodes search.visited ≤ limit →
    node ∉ search.visited → (search.path ++ [node]).IsChain (Follows successors) →
    Searching successors report search done →
    ∃ search' done', detect node search = some search' ∧
      Searching successors report search' done' ∧ Advanced search search' done done' ∧
      node ∈ done'

variable {detect : ι → CycleSearch ι γ → Option (CycleSearch ι γ)}

theorem advanced_meet (detects : Detects successors report nodes fuel detect)
    (closed : ∀ node, successors node ⊆ nodes) {neighbor : ι}
    (follows : neighbor ∈ successors node) (here : search.path = front ++ [node])
    (enough : unvisited nodes search.visited ≤ fuel)
    (searching : Searching successors report search done) :
    ∃ search' done', meet detect report search neighbor = some search' ∧
      Searching successors report search' done' ∧ Advanced search search' done done' ∧
      (search'.cycles = [] → neighbor ∈ done') := by
  unfold meet
  by_cases isVisited : neighbor ∈ search.visited
  · rw [if_neg fun fresh => fresh isVisited]
    by_cases onStack : neighbor ∈ search.recStack
    · obtain ⟨index, found, closes⟩ := searching.close here follows onStack
      rw [if_pos onStack, found]
      refine ⟨_, done, rfl, closes, ⟨rfl, List.Subset.refl _, List.Subset.refl _, ?_⟩, ?_⟩
      · intro quiet
        simp at quiet
      · intro quiet
        simp at quiet
    · rw [if_neg onStack]
      refine ⟨search, done, rfl, searching, Advanced.refl search done, fun _ => ?_⟩
      apply ((searching.visited neighbor).mp isVisited).resolve_right
      exact fun onPath => onStack ((searching.onStack neighbor).mpr onPath)
  · rw [if_pos isVisited]
    have further : (search.path ++ [neighbor]).IsChain (Follows successors) := by
      apply List.isChain_append.mpr
      refine ⟨searching.chain, List.isChain_singleton _, ?_⟩
      intro last isLast next isNext
      rw [here, List.getLast?_concat, Option.mem_some_iff] at isLast
      rw [List.head?_cons, Option.mem_some_iff] at isNext
      rw [← isLast, ← isNext]
      exact follows
    obtain ⟨search', done', detected, searching', advanced, isDone⟩ :=
      detects neighbor search done (closed node follows) enough isVisited further searching
    exact ⟨search', done', detected, searching', advanced, fun _ => isDone⟩

theorem advanced_meetAll (detects : Detects successors report nodes fuel detect)
    (closed : ∀ node, successors node ⊆ nodes) {rest : List ι} (within : rest ⊆ successors node)
    (here : search.path = front ++ [node]) (enough : unvisited nodes search.visited ≤ fuel)
    (searching : Searching successors report search done) :
    ∃ search' done', rest.foldlM (meet detect report) search = some search' ∧
      Searching successors report search' done' ∧ Advanced search search' done done' ∧
      (search'.cycles = [] → ∀ neighbor ∈ rest, neighbor ∈ done') := by
  induction rest generalizing search done with
  | nil =>
      refine ⟨search, done, rfl, searching, Advanced.refl search done, ?_⟩
      intro _ neighbor impossible
      cases impossible
  | cons neighbor rest ih =>
      obtain ⟨middle, done', met, searching', advanced, isDone⟩ :=
        advanced_meet detects closed (within List.mem_cons_self) here enough searching
      obtain ⟨search', done'', folded, searching'', advanced', areDone⟩ := ih
        (fun other member => within (List.mem_cons_of_mem _ member)) (advanced.path.trans here)
        ((unvisited_le advanced.visited).trans enough) searching'
      refine ⟨search', done'', ?_, searching'', advanced.trans advanced', ?_⟩
      · rw [List.foldlM_cons, met]
        exact folded
      · intro quiet other member
        rcases List.mem_cons.mp member with same | later
        · rw [same]
          exact advanced'.done (isDone (advanced'.quiet quiet))
        · exact areDone quiet other later

/-- With fuel for every node not visited, the search of a fresh node ends with it done. -/
theorem detects_detectCycles (closed : ∀ node, successors node ⊆ nodes) (fuel : Nat) :
    Detects successors report nodes fuel (detectCycles successors report fuel) := by
  induction fuel with
  | zero =>
      intro node search done member enough fresh
      have less := unvisited_cons_lt member fresh
      omega
  | succ fuel ih =>
      intro node search done member enough fresh chain searching
      have less := unvisited_cons_lt member fresh
      have enoughBelow : unvisited nodes (search.enter node).visited ≤ fuel := by
        show unvisited nodes (node :: search.visited) ≤ fuel
        omega
      obtain ⟨below, done', folded, searching', advanced, areDone⟩ :=
        advanced_meetAll ih closed (List.Subset.refl (successors node)) rfl
          enoughBelow (searching.enter fresh chain)
      refine ⟨below.leave node, done' ++ [node], ?_, searching'.leave advanced.path areDone, ?_, ?_⟩
      · rw [detectCycles, folded]
        rfl
      · refine ⟨?_, ?_, ?_, advanced.quiet⟩
        · show below.path.dropLast = search.path
          rw [advanced.path]
          exact List.dropLast_concat
        · exact List.Subset.trans advanced.done (List.subset_append_left _ _)
        · exact List.Subset.trans (List.subset_cons_self _ _) advanced.visited
      · exact List.mem_append_right _ (List.mem_singleton_self node)

theorem searching_detectAll (report : List ι → ι → γ) (closed : ∀ node, successors node ⊆ nodes) :
    ∃ search done, detectAll successors report nodes = some search ∧
      Searching successors report search done ∧ search.path = [] ∧ nodes ⊆ done := by
  have detects : Detects successors report nodes nodes.length
      (detectCycles successors report nodes.length) := detects_detectCycles closed nodes.length
  have along : ∀ (rest : List ι) (search : CycleSearch ι γ) (done : List ι), rest ⊆ nodes →
      search.path = [] → Searching successors report search done →
      ∃ search' done', rest.foldlM (fun search node =>
          if node ∉ search.visited then detectCycles successors report nodes.length node search
          else pure search) search = some search' ∧
        Searching successors report search' done' ∧ search'.path = [] ∧ done ⊆ done' ∧
        rest ⊆ done' := by
    intro rest
    induction rest with
    | nil =>
        intro search done _ outside searching
        exact ⟨search, done, rfl, searching, outside, List.Subset.refl _, List.nil_subset _⟩
    | cons node rest ih =>
        intro search done within outside searching
        have first : ∃ middle done', (if node ∉ search.visited then
              detectCycles successors report nodes.length node search
            else pure search) = some middle ∧ Searching successors report middle done' ∧
            middle.path = [] ∧ done ⊆ done' ∧ node ∈ done' := by
          by_cases isVisited : node ∈ search.visited
          · rw [if_neg fun fresh => fresh isVisited]
            refine ⟨search, done, rfl, searching, outside, List.Subset.refl _, ?_⟩
            apply ((searching.visited node).mp isVisited).resolve_right
            rw [outside]
            exact List.not_mem_nil
          · rw [if_pos isVisited]
            obtain ⟨middle, done', detected, searching', advanced, isDone⟩ :=
              detects node search done (within List.mem_cons_self) (List.length_filter_le _ _)
                isVisited (by rw [outside]; exact List.isChain_singleton _) searching
            exact ⟨middle, done', detected, searching', advanced.path.trans outside, advanced.done,
              isDone⟩
        obtain ⟨middle, done', detected, searching', outside', grown, isDone⟩ := first
        obtain ⟨search', done'', folded, searching'', outside'', grown', areDone⟩ :=
          ih middle done' (fun other member => within
            (List.mem_cons_of_mem _ member)) outside' searching'
        refine ⟨search', done'', ?_, searching'', outside'', List.Subset.trans grown grown', ?_⟩
        · rw [List.foldlM_cons, detected]
          exact folded
        · exact List.cons_subset.mpr ⟨grown' isDone, areDone⟩
  obtain ⟨search, done, folded, searching, outside, -, areDone⟩ :=
    along nodes start [] (List.Subset.refl _) rfl searching_start
  exact ⟨search, done, folded, searching, outside, areDone⟩

omit [DecidableEq ι] in
theorem follows_of_chain (path : List ι) (first last : ι)
    (chain : (first :: path ++ [last]).IsChain (Follows successors)) :
    Relation.TransGen (Follows successors) first last := by
  induction path generalizing first with
  | nil =>
      rw [List.singleton_append, List.isChain_pair] at chain
      exact .single chain
  | cons next path ih =>
      rw [List.cons_append, List.cons_append, List.isChain_cons_cons] at chain
      exact .head chain.1 (ih next chain.2)

omit [DecidableEq ι] in
theorem ClosedBy.cyclic {path : List ι} (closes : ClosedBy successors path node) :
    Relation.TransGen (Follows successors) node node := by
  obtain ⟨opens, chain⟩ := closes
  obtain ⟨rest, rfl⟩ := List.head?_eq_some_iff.mp opens
  exact follows_of_chain rest node node chain

/-- The search ends, every cycle it reports is one, and it reports one exactly when there is
one. -/
theorem detectAll_spec (report : List ι → ι → γ) (closed : ∀ node, successors node ⊆ nodes)
    (sources : ∀ node, successors node ≠ [] → node ∈ nodes) :
    ∃ search, detectAll successors report nodes = some search ∧
      (∀ cycle ∈ search.cycles, ∃ path node, cycle = report path node ∧
        ClosedBy successors path node) ∧
      (search.cycles ≠ [] ↔ ¬Acyclic (Follows successors)) := by
  obtain ⟨search, done, detected, searching, -, areDone⟩ :=
    searching_detectAll report closed
  refine ⟨search, detected, searching.real, ?_⟩
  constructor
  · intro some acyclic
    obtain ⟨cycle, member⟩ := List.exists_mem_of_ne_nil _ some
    obtain ⟨path, node, -, closes⟩ := searching.real cycle member
    exact acyclic node closes.cyclic
  · intro cyclic quiet
    apply cyclic
    intro node around
    obtain ⟨next, follows, -⟩ := Relation.TransGen.head'_iff.mp around
    have isDone := areDone (sources node (List.ne_nil_of_mem follows))
    exact (searching.layered quiet).irreflexive isDone around

end Run

end CycleSearch

end Rayzor.Library
