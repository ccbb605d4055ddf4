import Rayzor.Library.Kahn
import Rayzor.Library.Tarjan
import Rayzor.Library.UnionFind

/-!
Contract: the solver of lifetime constraints.

Owns: constraints, the outlives graph, the cache of solutions, and `solve` with what a solver
keeps from one use to the next.

Does not own: the hash of a list of constraints, statistics and time. A run that panics has no
result.
-/

namespace Rayzor.Lifetimes

open Library (OrdMap UnionFind tarjan)
open Library.Kahn (drain)

abbrev LifetimeId := Nat

abbrev SymbolId := Nat

abbrev ConstraintSetHash := Fin (2 ^ 64)

/-- `δ` has the locations, reasons and names, which only the hash reads. -/
inductive LifetimeConstraint (δ : Type) where
  | outlives (longer shorter : LifetimeId) (details : δ)
  | equal (left right : LifetimeId) (details : δ)
  | call (callerLifetimes calleeLifetimes : List LifetimeId) (details : δ)
  | borrow (borrowerLifetime : LifetimeId) (details : δ)
  | ret (returnLifetime : LifetimeId) (parameterLifetimes : List LifetimeId) (details : δ)
  | field (objectLifetime fieldLifetime : LifetimeId) (details : δ)
  | type (details : δ)

inductive SolverError where
  | constraintSystemTooLarge (size maxSize : Nat)
  | cycleDetected

inductive ConflictType where
  | outlivesCycle

structure ConstraintConflict where
  conflictingLifetimes : List LifetimeId
  description : String
  conflictType : ConflictType

structure LifetimeSolution where
  assignments : OrdMap SymbolId LifetimeId
  lifetimeRepresentatives : OrdMap LifetimeId LifetimeId
  lifetimeOrdering : List LifetimeId
  constraintHash : ConstraintSetHash
  satisfiable : Bool
  conflicts : List ConstraintConflict

structure OutlivesGraph where
  edges : OrdMap LifetimeId (OrdMap LifetimeId Unit)
  vertices : OrdMap LifetimeId Unit

namespace OutlivesGraph

def empty : OutlivesGraph := ⟨OrdMap.empty, OrdMap.empty⟩

def addEdge (graph : OutlivesGraph) (source target : LifetimeId) : OutlivesGraph where
  edges := graph.edges.insert source
    (((graph.edges.get? source).getD OrdMap.empty).insert target ())
  vertices := (graph.vertices.insert source ()).insert target ()

def successors (graph : OutlivesGraph) (vertex : LifetimeId) : List LifetimeId :=
  ((graph.edges.get? vertex).map OrdMap.keys).getD []

def findStronglyConnectedComponents (graph : OutlivesGraph) : Option (List (List LifetimeId)) :=
  (tarjan graph.successors graph.vertices.keys.length graph.vertices.keys).map (·.components)

def inDegree (graph : OutlivesGraph) : Option (OrdMap LifetimeId Nat) :=
  (graph.edges.values.flatMap OrdMap.keys).foldlM (fun degrees adjacent =>
    (degrees.get? adjacent).map fun degree => degrees.insert adjacent (degree + 1))
    (graph.vertices.keys.foldl (fun degrees vertex => degrees.insert vertex 0) OrdMap.empty)

def topologicalSort (graph : OutlivesGraph) : Option (Except SolverError (List LifetimeId)) :=
  graph.inDegree.bind fun degrees =>
    (drain graph.successors graph.vertices.keys.length
      (degrees, (degrees.entries.filter (·.2 = 0)).map Prod.fst)).map fun result =>
        if result.length ≠ graph.vertices.keys.length then .error .cycleDetected else .ok result

end OutlivesGraph

structure LRUCache where
  capacity : Nat
  map : OrdMap ConstraintSetHash LifetimeSolution
  insertionOrder : List ConstraintSetHash

namespace LRUCache

def new (capacity : Nat) : LRUCache := ⟨capacity, OrdMap.empty, []⟩

/-- The key is the most recently used. -/
def touch (cache : LRUCache) (key : ConstraintSetHash) : LRUCache :=
  { cache with insertionOrder := cache.insertionOrder.filter (· ≠ key) ++ [key] }

def insert (cache : LRUCache) (key : ConstraintSetHash) (value : LifetimeSolution) : LRUCache :=
  if cache.map.contains key then { cache with map := cache.map.insert key value }.touch key
  else
    let cache := if cache.capacity ≤ cache.map.entries.length then
        match cache.insertionOrder with
        | [] => cache
        | lruKey :: rest => { cache with map := cache.map.erase lruKey, insertionOrder := rest }
      else cache
    { cache with
      map := cache.map.insert key value
      insertionOrder := cache.insertionOrder ++ [key] }

def clear (cache : LRUCache) : LRUCache := ⟨cache.capacity, OrdMap.empty, []⟩

end LRUCache

/-- The sets and the graph that constraints are put into. -/
abbrev System := UnionFind LifetimeId × OutlivesGraph

def processConstraint {δ : Type} (system : System) : LifetimeConstraint δ → Option System
  | .equal left right _ => (system.1.union left right).map (·, system.2)
  | .outlives longer shorter _ => some (system.1, system.2.addEdge longer shorter)
  | .call callerLifetimes calleeLifetimes _ =>
      some (system.1, (callerLifetimes.zip calleeLifetimes).foldl
        (fun graph pair => graph.addEdge pair.1 pair.2) system.2)
  | .borrow _ _ => some system
  | .ret returnLifetime parameterLifetimes _ =>
      some (system.1, parameterLifetimes.foldl
        (fun graph parameter => graph.addEdge parameter returnLifetime) system.2)
  | .field objectLifetime fieldLifetime _ =>
      some (system.1, system.2.addEdge objectLifetime fieldLifetime)
  | .type _ => none

def detectCycles (graph : OutlivesGraph) : Option (List (List LifetimeId)) :=
  graph.findStronglyConnectedComponents.map (·.filter fun scc => 1 < scc.length)

def assignNext (state : OrdMap SymbolId LifetimeId × SymbolId) (lifetime : LifetimeId) :
    OrdMap SymbolId LifetimeId × SymbolId :=
  (state.1.insert state.2 lifetime, state.2 + 1)

def syntheticAssignments (representatives : OrdMap LifetimeId LifetimeId)
    (graph : OutlivesGraph) : OrdMap SymbolId LifetimeId :=
  (graph.vertices.keys.foldl (fun state lifetime =>
      if state.1.values.contains lifetime then state else assignNext state lifetime)
    (representatives.entries.foldl (fun state entry =>
        if entry.1 = entry.2 then assignNext state entry.1 else state) (OrdMap.empty, 1))).1

def generateAssignments (variableLifetimes : OrdMap SymbolId LifetimeId)
    (representatives : OrdMap LifetimeId LifetimeId) (graph : OutlivesGraph) :
    OrdMap SymbolId LifetimeId :=
  let assignments := variableLifetimes.mapValues fun _ lifetime =>
    (representatives.get? lifetime).getD lifetime
  if assignments.entries.isEmpty then syntheticAssignments representatives graph else assignments

structure LifetimeConstraintSolver where
  unionFind : UnionFind LifetimeId
  outlivesGraph : OutlivesGraph
  variableLifetimes : OrdMap SymbolId LifetimeId
  solutionCache : LRUCache
  maxConstraintSystemSize : Nat

def cycleConflict (cycle : List LifetimeId) : ConstraintConflict :=
  ⟨cycle, "Cycle in lifetime outlives relationships", .outlivesCycle⟩

def unsatisfiable (constraintHash : ConstraintSetHash) (cycles : List (List LifetimeId)) :
    LifetimeSolution :=
  ⟨OrdMap.empty, OrdMap.empty, [], constraintHash, false, cycles.map cycleConflict⟩

namespace LifetimeConstraintSolver

def new (cacheSize maxConstraintSystemSize : Nat) : LifetimeConstraintSolver :=
  ⟨UnionFind.empty, OutlivesGraph.empty, OrdMap.empty, LRUCache.new cacheSize,
    maxConstraintSystemSize⟩

def resetSolverState (solver : LifetimeConstraintSolver) : LifetimeConstraintSolver :=
  { solver with
    unionFind := UnionFind.empty
    outlivesGraph := OutlivesGraph.empty
    variableLifetimes := OrdMap.empty }

def addVariableLifetime (solver : LifetimeConstraintSolver) (symbol : SymbolId)
    (lifetime : LifetimeId) : LifetimeConstraintSolver :=
  { solver with variableLifetimes := solver.variableLifetimes.insert symbol lifetime }

def clearCache (solver : LifetimeConstraintSolver) : LifetimeConstraintSolver :=
  { solver with solutionCache := solver.solutionCache.clear }

variable {δ : Type}

/-- A system without cycles. -/
def solveAcyclic (solver : LifetimeConstraintSolver) (constraintHash : ConstraintSetHash)
    (lifetimeOrdering : List LifetimeId) :
    Option (LifetimeConstraintSolver × Except SolverError LifetimeSolution) :=
  solver.unionFind.representatives.bind fun first =>
    let assignments := generateAssignments solver.variableLifetimes first.2 solver.outlivesGraph
    first.1.representatives.map fun second =>
      let solution : LifetimeSolution :=
        ⟨assignments, second.2, lifetimeOrdering, constraintHash, true, []⟩
      ({ solver with
          unionFind := second.1
          solutionCache := solver.solutionCache.insert constraintHash solution }, .ok solution)

/-- The steps behind the cache. -/
def solveSystem (solver : LifetimeConstraintSolver) (constraintHash : ConstraintSetHash)
    (constraints : List (LifetimeConstraint δ)) :
    Option (LifetimeConstraintSolver × Except SolverError LifetimeSolution) :=
  (constraints.foldlM processConstraint (solver.unionFind, solver.outlivesGraph)).bind
    fun system =>
      let solver := { solver with unionFind := system.1, outlivesGraph := system.2 }
      (detectCycles system.2).bind fun cycles =>
        if cycles.isEmpty then
          system.2.topologicalSort.bind fun sorted =>
            match sorted with
            | .error error => some (solver, .error error)
            | .ok ordering => solver.solveAcyclic constraintHash ordering
        else some (solver, .ok (unsatisfiable constraintHash cycles))

def solve (hash : List (LifetimeConstraint δ) → ConstraintSetHash)
    (solver : LifetimeConstraintSolver) (constraints : List (LifetimeConstraint δ)) :
    Option (LifetimeConstraintSolver × Except SolverError LifetimeSolution) :=
  if solver.maxConstraintSystemSize < constraints.length then
    some (solver, .error
      (.constraintSystemTooLarge constraints.length solver.maxConstraintSystemSize))
  else
    match solver.solutionCache.map.get? (hash constraints) with
    | some cached =>
        some ({ solver with solutionCache := solver.solutionCache.touch (hash constraints) },
          .ok cached)
    | none => solver.resetSolverState.solveSystem (hash constraints) constraints

end LifetimeConstraintSolver

inductive Use (δ : Type) where
  | addVariableLifetime (symbol : SymbolId) (lifetime : LifetimeId)
  | solve (constraints : List (LifetimeConstraint δ))
  | clearCache

def apply {δ : Type} (hash : List (LifetimeConstraint δ) → ConstraintSetHash)
    (solver : LifetimeConstraintSolver) : Use δ → Option LifetimeConstraintSolver
  | .addVariableLifetime symbol lifetime => some (solver.addVariableLifetime symbol lifetime)
  | .solve constraints => (solver.solve hash constraints).map Prod.fst
  | .clearCache => some solver.clearCache

end Rayzor.Lifetimes
