import Rayzor.Lifetimes.Systems

/-!
Contract: what a solver answers after any uses.
-/

namespace Rayzor.Lifetimes

open Library (OrdMap UnionFind)
open Library.UnionFind (Connected classes_empty)
open LifetimeConstraintSolver (new)

variable {δ : Type}

def LifetimeConstraint.lifetimes : LifetimeConstraint δ → List LifetimeId
  | .outlives longer shorter _ => [longer, shorter]
  | .equal left right _ => [left, right]
  | .call callerLifetimes calleeLifetimes _ => callerLifetimes ++ calleeLifetimes
  | .borrow borrowerLifetime _ => [borrowerLifetime]
  | .ret returnLifetime parameterLifetimes _ => returnLifetime :: parameterLifetimes
  | .field objectLifetime fieldLifetime _ => [objectLifetime, fieldLifetime]
  | .type _ => []

def lifetimesOf (constraints : List (LifetimeConstraint δ)) : List LifetimeId :=
  constraints.flatMap LifetimeConstraint.lifetimes

def Equated (constraints : List (LifetimeConstraint δ)) : LifetimeId → LifetimeId → Prop :=
  Connected (equalitiesOf constraints)

/-- A chain of edges, with equal lifetimes identified, leads from a lifetime back to itself through
an edge between distinct classes. -/
def ClassCycle (constraints : List (LifetimeConstraint δ)) : Prop :=
  ∃ edge ∈ edgesOf constraints, ¬Equated constraints edge.1 edge.2 ∧
    Relation.ReflTransGen
      (fun longer shorter => (longer, shorter) ∈ edgesOf constraints ∨
        Equated constraints longer shorter) edge.2 edge.1

def LifetimeSolution.representative (solution : LifetimeSolution) (lifetime : LifetimeId) :
    LifetimeId :=
  (solution.lifetimeRepresentatives.get? lifetime).getD lifetime

/-- What a satisfiable solution says. -/
structure Assigns (registered : OrdMap SymbolId LifetimeId)
    (constraints : List (LifetimeConstraint δ)) (solution : LifetimeSolution) : Prop where
  once : solution.lifetimeOrdering.Nodup
  complete : ∀ lifetime, lifetime ∈ solution.lifetimeOrdering ↔ lifetime ∈ lifetimesOf constraints
  precedes : ∀ edge ∈ edgesOf constraints,
    solution.lifetimeOrdering.idxOf edge.1 < solution.lifetimeOrdering.idxOf edge.2
  agrees : ∀ first second, solution.representative first = solution.representative second ↔
    Equated constraints first second
  assigned : ∀ symbol lifetime, registered.get? symbol = some lifetime →
    solution.assignments.get? symbol = some (solution.representative lifetime)

structure Meets (registered : OrdMap SymbolId LifetimeId)
    (constraints : List (LifetimeConstraint δ)) (solution : LifetimeSolution) : Prop where
  satisfiable_iff : solution.satisfiable = true ↔ ¬ClassCycle constraints
  assigns : solution.satisfiable = true → Assigns registered constraints solution

structure InScope (maxSize : Nat) (constraints : List (LifetimeConstraint δ)) : Prop where
  within : constraints.length ≤ maxSize
  handled : ∀ constraint ∈ constraints, constraint.Handled

/-- What the steps behind the cache make of a system. -/
def answering (constraintHash : ConstraintSetHash) (constraints : List (LifetimeConstraint δ)) :
    Option (System × Except SolverError LifetimeSolution) :=
  ((new 0 0).solveSystem constraintHash constraints).map fun result =>
    ((result.1.unionFind, result.1.outlivesGraph), result.2)

def LRUCache.keeping (cache : LRUCache) (constraintHash : ConstraintSetHash) :
    Except SolverError LifetimeSolution → LRUCache
  | .error _ => cache
  | .ok solution => if solution.satisfiable then cache.insert constraintHash solution else cache

/-- Behind the cache nothing of the solver's past matters. -/
theorem solveSystem_reset (solver : LifetimeConstraintSolver) (constraintHash : ConstraintSetHash)
    (constraints : List (LifetimeConstraint δ)) :
    solver.resetSolverState.solveSystem constraintHash constraints =
      (answering constraintHash constraints).map fun answered =>
        (⟨answered.1.1, answered.1.2, OrdMap.empty,
          solver.solutionCache.keeping constraintHash answered.2, solver.maxConstraintSystemSize⟩,
          answered.2) := by
  unfold answering LifetimeConstraintSolver.solveSystem LifetimeConstraintSolver.resetSolverState
    new
  simp only
  cases constraints.foldlM processConstraint (UnionFind.empty, OutlivesGraph.empty) with
  | none => rfl
  | some system =>
      simp only [Option.bind_some]
      cases detectCycles system.2 with
      | none => rfl
      | some cycles =>
          simp only [Option.bind_some]
          split_ifs with isAcyclic
          · cases system.2.topologicalSort with
            | none => rfl
            | some sorted =>
                cases sorted with
                | error => rfl
                | ok ordering =>
                    simp only [Option.bind_some, LifetimeConstraintSolver.solveAcyclic]
                    cases system.1.representatives with
                    | none => rfl
                    | some first =>
                        simp only [Option.bind_some]
                        cases first.1.representatives with
                        | none => rfl
                        | some second => rfl
          · rfl

/-- The condition under which a system alone is answered rightly. -/
structure Plain (registered : OrdMap SymbolId LifetimeId)
    (constraints : List (LifetimeConstraint δ)) : Prop where
  cycle_iff : HasCycle (edgesOf constraints) ↔ ClassCycle constraints
  noLoop : ¬HasCycle (edgesOf constraints) → ∀ lifetime, (lifetime, lifetime) ∉ edgesOf constraints
  inEdges : ¬HasCycle (edgesOf constraints) → ∀ lifetime ∈ lifetimesOf constraints,
    ∃ edge ∈ edgesOf constraints, lifetime = edge.1 ∨ lifetime = edge.2
  unregistered : ¬HasCycle (edgesOf constraints) →
    ∀ symbol, registered.get? symbol = none

theorem lifetimes_of_edge {constraint : LifetimeConstraint δ} {edge : LifetimeId × LifetimeId}
    (isEdge : edge ∈ constraint.edges) :
    edge.1 ∈ constraint.lifetimes ∧ edge.2 ∈ constraint.lifetimes := by
  cases constraint with
  | outlives longer shorter details =>
      cases List.mem_singleton.mp isEdge
      simp [LifetimeConstraint.lifetimes]
  | field objectLifetime fieldLifetime details =>
      cases List.mem_singleton.mp isEdge
      simp [LifetimeConstraint.lifetimes]
  | call callerLifetimes calleeLifetimes details =>
      have paired := List.of_mem_zip (a := edge.1) (b := edge.2) isEdge
      simp [LifetimeConstraint.lifetimes, paired.1, paired.2]
  | ret returnLifetime parameterLifetimes details =>
      obtain ⟨parameter, isParameter, rfl⟩ := List.mem_map.mp isEdge
      simp [LifetimeConstraint.lifetimes, isParameter]
  | equal | borrow | type => cases isEdge

theorem mem_lifetimesOf_of_edge {constraints : List (LifetimeConstraint δ)}
    {edge : LifetimeId × LifetimeId} (isEdge : edge ∈ edgesOf constraints) {lifetime : LifetimeId}
    (isEnd : lifetime = edge.1 ∨ lifetime = edge.2) : lifetime ∈ lifetimesOf constraints := by
  obtain ⟨constraint, isConstraint, inConstraint⟩ := List.mem_flatMap.mp isEdge
  have ends := lifetimes_of_edge inConstraint
  rcases isEnd with rfl | rfl
  · exact List.mem_flatMap.mpr ⟨constraint, isConstraint, ends.1⟩
  · exact List.mem_flatMap.mpr ⟨constraint, isConstraint, ends.2⟩

theorem answering_meets {registered : OrdMap SymbolId LifetimeId}
    {constraints : List (LifetimeConstraint δ)}
    (handled : ∀ constraint ∈ constraints, constraint.Handled)
    (plain : Plain registered constraints) (constraintHash : ConstraintSetHash) :
    ∃ system solution, answering constraintHash constraints = some (system, .ok solution) ∧
      Meets registered constraints solution := by
  obtain ⟨sets, root, processed, classes⟩ :=
    @process_spec _ _ (UnionFind.empty, OutlivesGraph.empty) _ _ handled classes_empty
  have isGraph := isGraphOf_empty.addEdges (edgesOf constraints)
  rw [List.nil_append] at isGraph classes
  obtain ⟨cycles, detected, none_iff⟩ := detectCycles_spec isGraph
  unfold answering LifetimeConstraintSolver.solveSystem new
  simp only [processed, Option.bind_some, detected]
  by_cases hasCycle : HasCycle (edgesOf constraints)
  · have some : ¬cycles.isEmpty = true := fun isEmpty => none_iff.mp isEmpty hasCycle
    rw [if_neg some]
    refine ⟨_, _, rfl, ⟨?_, ?_⟩⟩
    · exact iff_of_false Bool.false_ne_true (not_not.mpr (plain.cycle_iff.mp hasCycle))
    · exact fun isSatisfiable => absurd isSatisfiable Bool.false_ne_true
  · rw [if_pos (none_iff.mpr hasCycle)]
    obtain ⟨ordering, sorted, orders⟩ :=
      topologicalSort_spec isGraph hasCycle (plain.noLoop hasCycle)
    obtain ⟨sets', first, isFirst, represents, -⟩ := classes.represents.representatives
    obtain ⟨sets'', second, isSecond, -, roots⟩ := represents.representatives
    simp only [sorted, Option.bind_some, LifetimeConstraintSolver.solveAcyclic, isFirst, isSecond,
      Option.map_some]
    refine ⟨_, _, rfl, ⟨?_, fun _ => ⟨orders.once, ?_, orders.precedes, ?_, ?_⟩⟩⟩
    · exact iff_of_true rfl fun classCycle => hasCycle (plain.cycle_iff.mpr classCycle)
    · intro lifetime
      rw [orders.mem_iff, isGraph.vertices]
      constructor
      · rintro ⟨edge, isEdge, isEnd⟩
        exact mem_lifetimesOf_of_edge isEdge isEnd
      · exact plain.inEdges hasCycle lifetime
    · intro one other
      unfold LifetimeSolution.representative
      simp only [roots]
      exact classes.same one other
    · intro symbol lifetime isRegistered
      rw [plain.unregistered hasCycle] at isRegistered
      cases isRegistered

def solvedSince (uses : List (Use δ)) : List (List (LifetimeConstraint δ)) :=
  uses.foldl (fun solved use => match use with
    | .solve constraints => solved ++ [constraints]
    | .clearCache => []
    | .addVariableLifetime _ _ => solved) []

def registeredBy (uses : List (Use δ)) : OrdMap SymbolId LifetimeId :=
  uses.foldl (fun registered use => match use with
    | .addVariableLifetime symbol lifetime => registered.insert symbol lifetime
    | _ => registered) OrdMap.empty

def run (hash : List (LifetimeConstraint δ) → ConstraintSetHash)
    (solver : LifetimeConstraintSolver) (uses : List (Use δ)) : Option LifetimeConstraintSolver :=
  uses.foldlM (apply hash) solver

def fresh (cacheSize maxSize : Nat) (registered : OrdMap SymbolId LifetimeId) :
    LifetimeConstraintSolver :=
  registered.entries.foldl (fun solver entry => solver.addVariableLifetime entry.1 entry.2)
    (new cacheSize maxSize)

/-- After some uses, the answer is a solution that meets its constraints and that a fresh solver
gives too. -/
def AnswersRightly (hash : List (LifetimeConstraint δ) → ConstraintSetHash)
    (cacheSize maxSize : Nat) (before : List (Use δ))
    (constraints : List (LifetimeConstraint δ)) : Prop :=
  ∃ solver solver' solution, run hash (new cacheSize maxSize) before = some solver ∧
    solver.solve hash constraints = some (solver', .ok solution) ∧
    Meets (registeredBy before) constraints solution ∧
    ((fresh cacheSize maxSize (registeredBy before)).solve hash constraints).map Prod.snd =
      some (.ok solution)

structure Kept (hash : List (LifetimeConstraint δ) → ConstraintSetHash) (maxSize : Nat)
    (solved : List (List (LifetimeConstraint δ))) (solver : LifetimeConstraintSolver) : Prop where
  bound : solver.maxConstraintSystemSize = maxSize
  cached : ∀ key solution, solver.solutionCache.map.get? key = some solution →
    ∃ constraints ∈ solved, hash constraints = key ∧
      ∃ system, answering key constraints = some (system, .ok solution)

theorem LRUCache.get?_insert {cache : LRUCache} {key other : ConstraintSetHash}
    {value value' : LifetimeSolution}
    (found : (cache.insert key value).map.get? other = some value') :
    cache.map.get? other = some value' ∨ other = key ∧ value' = value := by
  have inserted : ∀ {map : OrdMap ConstraintSetHash LifetimeSolution},
      (map.insert key value).get? other = some value' →
      map.get? other = some value' ∨ other = key ∧ value' = value := by
    intro map found
    rw [OrdMap.get?_insert] at found
    split_ifs at found with same
    · exact Or.inr ⟨same, (Option.some.inj found).symm⟩
    · exact Or.inl found
  unfold LRUCache.insert at found
  split_ifs at found with isKey isFull
  · exact inserted found
  · cases order : cache.insertionOrder with
    | nil =>
        rw [order] at found
        exact inserted found
    | cons lruKey rest =>
        rw [order] at found
        rcases inserted found with kept | isNew
        · simp only [OrdMap.get?_erase] at kept
          split_ifs at kept
          exact Or.inl kept
        · exact Or.inr isNew
  · exact inserted found

theorem kept_new (hash : List (LifetimeConstraint δ) → ConstraintSetHash)
    (cacheSize maxSize : Nat) : Kept hash maxSize [] (new cacheSize maxSize) where
  bound := rfl
  cached key solution found := by cases found

variable {hash : List (LifetimeConstraint δ) → ConstraintSetHash} {cacheSize maxSize : Nat}
  {solver : LifetimeConstraintSolver} {solved : List (List (LifetimeConstraint δ))}
  {constraints : List (LifetimeConstraint δ)}

/-- The step lemma: a solve answers as the steps behind the cache do, and keeps what the cache
holds. -/
theorem Kept.solve (kept : Kept hash maxSize solved solver) (scope : InScope maxSize constraints)
    (noClash : ∀ earlier ∈ solved, hash earlier = hash constraints → earlier = constraints)
    {system : System} {solution : LifetimeSolution}
    (answered : answering (hash constraints) constraints = some (system, .ok solution)) :
    ∃ solver', solver.solve hash constraints = some (solver', .ok solution) ∧
      Kept hash maxSize (solved ++ [constraints]) solver' := by
  have short : ¬solver.maxConstraintSystemSize < constraints.length := by
    rw [kept.bound]
    exact not_lt.mpr scope.within
  have earlier : ∀ key solution', solver.solutionCache.map.get? key = some solution' →
      ∃ constraints' ∈ solved ++ [constraints], hash constraints' = key ∧
        ∃ system, answering key constraints' = some (system, .ok solution') := by
    intro key solution' found
    obtain ⟨constraints', isSolved, rest⟩ := kept.cached key solution' found
    exact ⟨constraints', List.mem_append_left _ isSolved, rest⟩
  unfold LifetimeConstraintSolver.solve
  rw [if_neg short]
  cases found : solver.solutionCache.map.get? (hash constraints) with
  | some cached =>
      obtain ⟨constraints', isSolved, sameHash, system', answered'⟩ := kept.cached _ _ found
      have same := noClash constraints' isSolved sameHash
      rw [same, answered] at answered'
      cases answered'
      exact ⟨_, rfl, kept.bound, earlier⟩
  | none =>
      simp only [solveSystem_reset, answered, Option.map_some]
      refine ⟨_, rfl, kept.bound, fun key solution' isCached => ?_⟩
      unfold LRUCache.keeping at isCached
      simp only at isCached
      split_ifs at isCached
      · rcases LRUCache.get?_insert isCached with before | ⟨rfl, rfl⟩
        · exact earlier key solution' before
        · exact ⟨constraints, List.mem_append_right _ (List.mem_singleton_self _), rfl,
            system, answered⟩
      · exact earlier key solution' isCached

structure Careful (hash : List (LifetimeConstraint δ) → ConstraintSetHash)
    (before : List (Use δ)) (constraints : List (LifetimeConstraint δ)) : Prop where
  noClash : ∀ earlier ∈ solvedSince before, hash earlier = hash constraints →
    earlier = constraints
  plain : Plain (registeredBy before) constraints

def AllCareful (hash : List (LifetimeConstraint δ) → ConstraintSetHash) (maxSize : Nat)
    (uses : List (Use δ)) : Prop :=
  ∀ before constraints, before ++ [Use.solve constraints] <+: uses →
    InScope maxSize constraints ∧ Careful hash before constraints

theorem kept_run (cacheSize : Nat) : ∀ {uses : List (Use δ)}, AllCareful hash maxSize uses →
    ∃ solver, run hash (new cacheSize maxSize) uses = some solver ∧
      Kept hash maxSize (solvedSince uses) solver := by
  intro uses
  induction uses using List.reverseRecOn with
  | nil => exact fun _ => ⟨_, rfl, kept_new hash cacheSize maxSize⟩
  | append_singleton uses use ih =>
      intro careful
      obtain ⟨solver, reached, kept⟩ := ih
        fun before constraints within => careful before constraints
          (within.trans (List.prefix_append uses [use]))
      have onwards : run hash (new cacheSize maxSize) (uses ++ [use]) = apply hash solver use := by
        unfold run at reached ⊢
        rw [List.foldlM_append, reached]
        show (apply hash solver use).bind some = _
        rw [Option.bind_fun_some]
      rw [onwards]
      unfold solvedSince
      rw [List.foldl_append]
      cases use with
      | addVariableLifetime symbol lifetime => exact ⟨_, rfl, kept.bound, kept.cached⟩
      | clearCache =>
          refine ⟨_, rfl, kept.bound, fun key solution found => ?_⟩
          cases found
      | solve constraints =>
          obtain ⟨scope, isCareful⟩ := careful uses constraints (List.prefix_refl _)
          obtain ⟨system, solution, answered, -⟩ :=
            answering_meets scope.handled isCareful.plain (hash constraints)
          obtain ⟨solver', isSolved, kept'⟩ := kept.solve scope isCareful.noClash answered
          refine ⟨solver', ?_, kept'⟩
          rw [apply, isSolved]
          rfl

theorem kept_fresh (hash : List (LifetimeConstraint δ) → ConstraintSetHash)
    (cacheSize maxSize : Nat) (registered : OrdMap SymbolId LifetimeId) :
    Kept hash maxSize [] (fresh cacheSize maxSize registered) := by
  have along : ∀ (entries : List (SymbolId × LifetimeId)) {solver : LifetimeConstraintSolver},
      Kept hash maxSize [] solver →
        Kept hash maxSize [] (entries.foldl (fun solver entry =>
          solver.addVariableLifetime entry.1 entry.2) solver) := by
    intro entries
    induction entries with
    | nil => exact fun kept => kept
    | cons entry entries ih =>
        exact fun kept => ih ⟨kept.bound, kept.cached⟩
  exact along registered.entries (kept_new hash cacheSize maxSize)

/-- In a run whose solves are careful every answer is right. -/
theorem answersRightly_of_careful (hash : List (LifetimeConstraint δ) → ConstraintSetHash)
    (cacheSize maxSize : Nat) (uses : List (Use δ)) (careful : AllCareful hash maxSize uses)
    (before : List (Use δ)) (constraints : List (LifetimeConstraint δ))
    (within : before ++ [Use.solve constraints] <+: uses) :
    AnswersRightly hash cacheSize maxSize before constraints := by
  obtain ⟨scope, isCareful⟩ := careful before constraints within
  obtain ⟨solver, reached, kept⟩ := kept_run cacheSize
    fun earlier constraints' isEarlier => careful earlier constraints'
      (isEarlier.trans ((List.prefix_append before _).trans within))
  obtain ⟨system, solution, answered, meets⟩ :=
    answering_meets scope.handled isCareful.plain (hash constraints)
  obtain ⟨solver', isSolved, -⟩ := kept.solve scope isCareful.noClash answered
  obtain ⟨fresh', isFresh, -⟩ := (kept_fresh hash cacheSize maxSize
    (registeredBy before)).solve scope (fun earlier isEarlier => by cases isEarlier) answered
  refine ⟨solver, solver', solution, reached, isSolved, meets, ?_⟩
  rw [isFresh]
  rfl

/-- One careful use: a solve of one edge. -/
theorem answersRightly_of_careful_edge : AnswersRightly (fun _ => 0) 1000 10000 []
    [LifetimeConstraint.outlives 3 4 ()] := by
  apply answersRightly_of_careful (fun _ => 0) 1000 10000 [.solve [.outlives 3 4 ()]] ?_ [] _
    (List.prefix_refl _)
  intro before constraints within
  have only : before = [] ∧ constraints = [LifetimeConstraint.outlives 3 4 ()] := by
    cases before with
    | nil =>
        obtain ⟨rest, same⟩ := within
        cases same
        exact ⟨rfl, rfl⟩
    | cons first before =>
        have short := within.length_le
        simp at short
  obtain ⟨rfl, rfl⟩ := only
  have stuck : ∀ lifetime, Leads [(3, 4)] 4 lifetime → lifetime = 4 := by
    intro lifetime leads
    induction leads with
    | refl => rfl
    | tail _ step ih =>
        subst ih
        simp at step
  have noCycle : ¬HasCycle [(3, 4)] := by
    rintro ⟨first, second, different, there, back⟩
    obtain same | ⟨next, step, leads⟩ := there.cases_head
    · exact different same
    · obtain ⟨rfl, rfl⟩ := Prod.mk.inj (List.mem_singleton.mp step)
      rw [stuck second leads] at back
      exact different (stuck _ back ▸ (stuck second leads).symm)
  have equated : ∀ first second, Equated [LifetimeConstraint.outlives 3 4 ()] first second →
      first = second := (classes_empty.same · · |>.mpr ·)
  have noClassCycle : ¬ClassCycle [LifetimeConstraint.outlives 3 4 ()] := by
    rintro ⟨edge, isEdge, -, around⟩
    cases List.mem_singleton.mp isEdge
    have back : Leads [(3, 4)] 4 3 := by
      refine around.lift' id fun longer shorter step => ?_
      rcases step with isEdge | same
      · exact .single isEdge
      · exact equated _ _ same ▸ .refl
    exact absurd (stuck 3 back) (by decide)
  refine ⟨⟨by decide, ?_⟩, ⟨?_, ⟨iff_of_false noCycle noClassCycle, ?_, ?_, ?_⟩⟩⟩
  · simp [LifetimeConstraint.Handled]
  · intro earlier isEarlier
    cases isEarlier
  · intro _ lifetime isEdge
    obtain ⟨rfl, same⟩ := Prod.mk.inj (List.mem_singleton.mp isEdge)
    exact absurd same (by decide)
  · intro _ lifetime isMentioned
    exact ⟨(3, 4), List.mem_singleton_self _, by simpa [lifetimesOf,
      LifetimeConstraint.lifetimes] using isMentioned⟩
  · exact fun _ symbol => rfl

/-- The variables registered before a solve are cleared by it, and not assigned. -/
theorem registered_unassigned : ¬∀ (hash : List (LifetimeConstraint Unit) → ConstraintSetHash)
    (cacheSize maxSize : Nat) (before : List (Use Unit))
    (constraints : List (LifetimeConstraint Unit)),
    (∀ earlier constraints', earlier ++ [Use.solve constraints'] <+: before →
      InScope maxSize constraints') → InScope maxSize constraints →
    AnswersRightly hash cacheSize maxSize before constraints := by
  intro promised
  obtain ⟨solver, solver', solution, reached, isSolved, meets, -⟩ := promised (fun _ => 0) 1000
    10000 [.addVariableLifetime 7 3] [.outlives 3 4 ()]
    (by
      intro earlier constraints' within
      obtain ⟨rest, same⟩ := within
      cases earlier with
      | nil => cases same
      | cons first earlier =>
          have length := congrArg List.length same
          simp at length)
    ⟨by decide, by simp [LifetimeConstraint.Handled]⟩
  cases reached
  have computed : (((new 1000 10000).addVariableLifetime 7 3).solve (fun _ => 0)
      [LifetimeConstraint.outlives 3 4 ()]).map (fun result => result.2.toOption.map
        fun solution => (solution.satisfiable, solution.assignments.get? 7)) =
          some (some (true, none)) := by
    decide
  have isSolved' : ((new 1000 10000).addVariableLifetime 7 3).solve (fun _ => 0)
      [LifetimeConstraint.outlives 3 4 ()] = some (solver', .ok solution) := isSolved
  rw [isSolved'] at computed
  simp only [Option.map_some, Except.toOption, Option.some.injEq, Prod.mk.injEq] at computed
  have assigned := (meets.assigns computed.1).assigned 7 3 rfl
  rw [computed.2] at assigned
  cases assigned

end Rayzor.Lifetimes
