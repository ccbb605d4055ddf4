import Rayzor.Lifetimes.Solver

/-!
Contract: what the solver finds in one system of constraints.

Owns: the equalities and edges of a system, that processing it never fails, the
cycles found, and the ordering of a graph without cycles.
-/

namespace Rayzor.Lifetimes

open Library (OrdMap UnionFind)
open Library.Kahn (Stuck drain)
open Library.Tarjan (Reaches)
open Library.UnionFind (Classes Connected)
open Library.Worklist (Follows)

variable {δ : Type}

def LifetimeConstraint.equalities : LifetimeConstraint δ → List (LifetimeId × LifetimeId)
  | .equal left right _ => [(left, right)]
  | _ => []

def LifetimeConstraint.edges : LifetimeConstraint δ → List (LifetimeId × LifetimeId)
  | .outlives longer shorter _ => [(longer, shorter)]
  | .call callerLifetimes calleeLifetimes _ => callerLifetimes.zip calleeLifetimes
  | .ret returnLifetime parameterLifetimes _ => parameterLifetimes.map (·, returnLifetime)
  | .field objectLifetime fieldLifetime _ => [(objectLifetime, fieldLifetime)]
  | _ => []

/-- The kinds of constraints the solver handles in full. -/
def LifetimeConstraint.Handled : LifetimeConstraint δ → Prop
  | .borrow _ _ | .type _ => False
  | _ => True

def equalitiesOf (constraints : List (LifetimeConstraint δ)) : List (LifetimeId × LifetimeId) :=
  constraints.flatMap LifetimeConstraint.equalities

def edgesOf (constraints : List (LifetimeConstraint δ)) : List (LifetimeId × LifetimeId) :=
  constraints.flatMap LifetimeConstraint.edges

def OutlivesGraph.addEdges (graph : OutlivesGraph) (edges : List (LifetimeId × LifetimeId)) :
    OutlivesGraph :=
  edges.foldl (fun graph edge => graph.addEdge edge.1 edge.2) graph

theorem processConstraint_eq (system : System) {constraint : LifetimeConstraint δ}
    (handled : constraint.Handled) : processConstraint system constraint =
      (system.1.unions constraint.equalities).map (·, system.2.addEdges constraint.edges) := by
  cases constraint with
  | equal left right details =>
      unfold UnionFind.unions
      rw [LifetimeConstraint.equalities, List.foldlM_cons]
      show (system.1.union left right).map _ = ((system.1.union left right).bind some).map _
      rw [Option.bind_fun_some]
      rfl
  | ret returnLifetime parameterLifetimes details =>
      show some _ = some (system.1, (parameterLifetimes.map (·, returnLifetime)).foldl _ _)
      rw [List.foldl_map]
  | borrow => cases handled
  | type => cases handled
  | _ => rfl

theorem process_spec : ∀ {constraints : List (LifetimeConstraint δ)} {system : System}
    {pairs : List (LifetimeId × LifetimeId)} {root : LifetimeId → LifetimeId},
    (∀ constraint ∈ constraints, constraint.Handled) → Classes system.1 pairs root →
      ∃ sets root', constraints.foldlM processConstraint system =
          some (sets, system.2.addEdges (edgesOf constraints)) ∧
        Classes sets (pairs ++ equalitiesOf constraints) root' := by
  intro constraints
  induction constraints with
  | nil =>
      intro system pairs root _ classes
      exact ⟨system.1, root, rfl, (List.append_nil pairs).symm ▸ classes⟩
  | cons constraint constraints ih =>
      intro system pairs root handled classes
      obtain ⟨sets, root', united, classes'⟩ := classes.unions constraint.equalities
      have step : processConstraint system constraint =
          some (sets, system.2.addEdges constraint.edges) := by
        rw [processConstraint_eq system (handled constraint List.mem_cons_self), united]
        rfl
      have rest : ∀ other ∈ constraints, other.Handled :=
        fun other isOther => handled other (List.mem_cons_of_mem _ isOther)
      obtain ⟨sets', root'', folded, classes''⟩ :=
        @ih (sets, system.2.addEdges constraint.edges) _ _ rest classes'
      refine ⟨sets', root'', ?_, ?_⟩
      · rw [List.foldlM_cons, step]
        refine folded.trans ?_
        unfold edgesOf OutlivesGraph.addEdges
        rw [List.flatMap_cons, List.foldl_append]
      · rwa [List.append_assoc] at classes''

structure IsGraphOf (graph : OutlivesGraph) (edges : List (LifetimeId × LifetimeId)) : Prop where
  successors : ∀ source target, target ∈ graph.successors source ↔ (source, target) ∈ edges
  vertices : ∀ vertex, vertex ∈ graph.vertices.keys ↔
    ∃ edge ∈ edges, vertex = edge.1 ∨ vertex = edge.2

theorem isGraphOf_empty : IsGraphOf OutlivesGraph.empty [] where
  successors source target := by simp [OutlivesGraph.successors, OutlivesGraph.empty]
  vertices vertex := by simp [OutlivesGraph.empty, OrdMap.mem_keys_iff]

theorem successors_addEdge (graph : OutlivesGraph) (source target other next : LifetimeId) :
    next ∈ (graph.addEdge source target).successors other ↔
      next ∈ graph.successors other ∨ other = source ∧ next = target := by
  unfold OutlivesGraph.successors OutlivesGraph.addEdge
  simp only [OrdMap.get?_insert]
  by_cases same : other = source
  · subst same
    simp only [if_true, Option.map_some, Option.getD_some, true_and]
    cases found : graph.edges.get? other with
    | none =>
        simp only [OrdMap.mem_keys_iff, OrdMap.get?_insert, Option.getD_none, OrdMap.get?_empty]
        by_cases isTarget : next = target <;> simp [isTarget]
    | some set =>
        simp only [OrdMap.mem_keys_iff, OrdMap.get?_insert, Option.getD_some, Option.map_some]
        by_cases isTarget : next = target <;> simp [isTarget]
  · simp [same]

theorem IsGraphOf.addEdge {graph : OutlivesGraph} {edges : List (LifetimeId × LifetimeId)}
    (isGraph : IsGraphOf graph edges) (source target : LifetimeId) :
    IsGraphOf (graph.addEdge source target) (edges ++ [(source, target)]) where
  successors other next := by
    rw [successors_addEdge, isGraph.successors, List.mem_append, List.mem_singleton,
      Prod.mk.injEq]
  vertices vertex := by
    have isVertex : vertex ∈ (graph.addEdge source target).vertices.keys ↔
        vertex ∈ graph.vertices.keys ∨ vertex = source ∨ vertex = target := by
      unfold OutlivesGraph.addEdge
      simp only [OrdMap.mem_keys_iff, OrdMap.get?_insert]
      by_cases isTarget : vertex = target
      · simp [isTarget]
      · by_cases isSource : vertex = source
        · simp [isSource]
        · simp [isTarget, isSource]
    rw [isVertex, isGraph.vertices]
    simp only [List.mem_append, List.mem_singleton, or_and_right, exists_or, exists_eq_left]

theorem IsGraphOf.addEdges (more : List (LifetimeId × LifetimeId)) :
    ∀ {graph : OutlivesGraph} {edges : List (LifetimeId × LifetimeId)}, IsGraphOf graph edges →
      IsGraphOf (graph.addEdges more) (edges ++ more) := by
  induction more with
  | nil =>
      intro graph edges isGraph
      exact (List.append_nil edges).symm ▸ isGraph
  | cons edge more ih =>
      intro graph edges isGraph
      have added := ih (isGraph.addEdge edge.1 edge.2)
      rwa [List.append_assoc, List.singleton_append] at added

section Found

variable {graph : OutlivesGraph} {edges : List (LifetimeId × LifetimeId)}

theorem IsGraphOf.closed (isGraph : IsGraphOf graph edges) (vertex : LifetimeId) :
    graph.successors vertex ⊆ graph.vertices.keys := by
  intro next follows
  exact (isGraph.vertices next).mpr
    ⟨_, (isGraph.successors vertex next).mp follows, Or.inr rfl⟩

theorem IsGraphOf.sources (isGraph : IsGraphOf graph edges) (vertex : LifetimeId)
    (some : graph.successors vertex ≠ []) : vertex ∈ graph.vertices.keys := by
  obtain ⟨next, follows⟩ := List.exists_mem_of_ne_nil _ some
  exact (isGraph.vertices vertex).mpr
    ⟨_, (isGraph.successors vertex next).mp follows, Or.inl rfl⟩

def Leads (edges : List (LifetimeId × LifetimeId)) : LifetimeId → LifetimeId → Prop :=
  Relation.ReflTransGen fun longer shorter => (longer, shorter) ∈ edges

def HasCycle (edges : List (LifetimeId × LifetimeId)) : Prop :=
  ∃ first second, first ≠ second ∧ Leads edges first second ∧ Leads edges second first

theorem IsGraphOf.follows_eq (isGraph : IsGraphOf graph edges) :
    Follows graph.successors = fun longer shorter => (longer, shorter) ∈ edges := by
  funext longer shorter
  exact propext (isGraph.successors longer shorter)

theorem IsGraphOf.reaches_eq (isGraph : IsGraphOf graph edges) :
    Reaches graph.successors = Leads edges := by
  unfold Reaches Leads
  rw [isGraph.follows_eq]

theorem mem_of_leads {first second : LifetimeId} (isGraph : IsGraphOf graph edges)
    (different : first ≠ second) (leads : Leads edges first second) :
    first ∈ graph.vertices.keys := by
  cases leads.cases_head with
  | inl same => exact absurd same different
  | inr step =>
      obtain ⟨next, isEdge, -⟩ := step
      exact (isGraph.vertices first).mpr ⟨_, isEdge, Or.inl rfl⟩

/-- A list without repetitions has two elements that differ exactly when it is long enough. -/
theorem one_lt_length_iff {list : List LifetimeId} (once : list.Nodup) :
    1 < list.length ↔ ∃ first ∈ list, ∃ second ∈ list, first ≠ second := by
  constructor
  · intro long
    refine ⟨list[0], List.getElem_mem _, list[1], List.getElem_mem _, fun same => ?_⟩
    have equal := (List.Nodup.getElem_inj_iff once).mp same
    cases equal
  · rintro ⟨first, isFirst, second, isSecond, different⟩
    by_contra short
    obtain ⟨i, below, isI⟩ := List.getElem_of_mem isFirst
    obtain ⟨j, below', isJ⟩ := List.getElem_of_mem isSecond
    have same : i = j := by omega
    subst same
    exact different (isI.symm.trans isJ)

/-- The cycles found are none exactly when no two lifetimes lead to each other. -/
theorem detectCycles_spec (isGraph : IsGraphOf graph edges) :
    ∃ cycles, detectCycles graph = some cycles ∧ (cycles.isEmpty = true ↔ ¬HasCycle edges) := by
  obtain ⟨search, isSearch, components⟩ := Library.Tarjan.tarjan_spec isGraph.closed
    (List.Subset.refl graph.vertices.keys) (Nat.le_refl _)
  have found : graph.findStronglyConnectedComponents = some search.components := by
    rw [OutlivesGraph.findStronglyConnectedComponents, isSearch]
    rfl
  have onceEach : ∀ component ∈ search.components, component.Nodup :=
    (List.nodup_flatten.mp components.distinct).1
  refine ⟨search.components.filter fun scc => 1 < scc.length, ?_, ?_⟩
  · rw [detectCycles, found]
    rfl
  · rw [List.isEmpty_iff, List.filter_eq_nil_iff]
    constructor
    · rintro none ⟨first, second, different, there, back⟩
      have isVertex := mem_of_leads isGraph different there
      obtain ⟨component, isComponent, isFirst⟩ := List.mem_flatten.mp
        ((components.covers first).mpr ⟨first, isVertex, .refl⟩)
      have isSecond : second ∈ component := by
        rw [components.isComponent component isComponent first isFirst, isGraph.reaches_eq]
        exact ⟨there, back⟩
      apply none component isComponent
      exact decide_eq_true ((one_lt_length_iff (onceEach component isComponent)).mpr
        ⟨first, isFirst, second, isSecond, different⟩)
    · intro none component isComponent long
      obtain ⟨first, isFirst, second, isSecond, different⟩ :=
        (one_lt_length_iff (onceEach component isComponent)).mp (of_decide_eq_true long)
      have mutual' := (components.isComponent component isComponent first isFirst second).mp isSecond
      rw [isGraph.reaches_eq] at mutual'
      exact none ⟨first, second, different, mutual'⟩

structure Orders (graph : OutlivesGraph) (edges : List (LifetimeId × LifetimeId))
    (ordering : List LifetimeId) : Prop where
  once : ordering.Nodup
  mem_iff : ∀ lifetime, lifetime ∈ ordering ↔ lifetime ∈ graph.vertices.keys
  precedes : ∀ edge ∈ edges, ordering.idxOf edge.1 < ordering.idxOf edge.2

theorem notStuck (isGraph : IsGraphOf graph edges) (noCycle : ¬HasCycle edges)
    (noLoop : ∀ lifetime, (lifetime, lifetime) ∉ edges) (vertex : LifetimeId) :
    ¬Stuck graph.successors vertex := by
  unfold Stuck
  rw [isGraph.follows_eq]
  rintro ⟨around, cycle, -⟩
  obtain ⟨next, isEdge, back⟩ := Relation.TransGen.head'_iff.mp cycle
  by_cases same : around = next
  · exact noLoop around (same ▸ isEdge)
  · exact noCycle ⟨around, next, same, .single isEdge, back⟩

theorem topologicalSort_spec (isGraph : IsGraphOf graph edges) (noCycle : ¬HasCycle edges)
    (noLoop : ∀ lifetime, (lifetime, lifetime) ∉ edges) :
    ∃ ordering, graph.topologicalSort = some (.ok ordering) ∧ Orders graph edges ordering := by
  have distinct := graph.vertices.keys_nodup
  obtain ⟨degrees, counted, sorting⟩ :=
    @Library.Kahn.sorting_of_counts _ _ _ graph.edges distinct isGraph.closed isGraph.sources
  obtain ⟨sorted, drained, isSorted⟩ := Library.Kahn.sorted_of_sorting distinct
    (Library.Kahn.members_nodup graph.edges) isGraph.closed isGraph.sources (Nat.le_refl _) sorting
  have mem_iff : ∀ lifetime, lifetime ∈ sorted ↔ lifetime ∈ graph.vertices.keys := by
    intro lifetime
    rw [isSorted.mem_iff]
    exact and_iff_left (notStuck isGraph noCycle noLoop lifetime)
  have sameLength : sorted.length = graph.vertices.keys.length :=
    ((List.perm_ext_iff_of_nodup isSorted.once distinct).mpr mem_iff).length_eq
  have isDegrees : graph.inDegree = some degrees := counted
  refine ⟨sorted, ?_, isSorted.once, mem_iff, ?_⟩
  · rw [OutlivesGraph.topologicalSort, isDegrees, Option.bind_some]
    show (drain (Library.Kahn.members graph.edges) _ _).map _ = _
    rw [drained, Option.map_some, if_neg (not_not.mpr sameLength)]
  · intro edge isEdge
    have follows : Follows graph.successors edge.1 edge.2 :=
      (isGraph.successors edge.1 edge.2).mpr isEdge
    have isVertex : edge.2 ∈ sorted :=
      (mem_iff edge.2).mpr ((isGraph.vertices edge.2).mpr ⟨edge, isEdge, Or.inr rfl⟩)
    exact (isSorted.precedes edge.1 edge.2 follows isVertex).2

end Found

end Rayzor.Lifetimes
