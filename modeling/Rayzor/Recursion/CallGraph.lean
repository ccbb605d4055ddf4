import Rayzor.Library.Discovery
import Rayzor.Library.Tarjan

/-!
Contract: the call graph and its recursion analysis.

Owns: the graph with the two ways to build it, the functions reachable from one, the components
of `compute_strongly_connected_components`, and `is_recursive`.

Does not own: how targets of virtual and dynamic calls are resolved. The names and texts of call
targets are not read, so they are left out. A result is `none` where the code would not end or
unwrap nothing.
-/

namespace Rayzor.Recursion

open Library (OrdMap)

abbrev SymbolId := Nat

abbrev CallSiteId := Nat

inductive CallTarget where
  | direct (function : SymbolId)
  | virtual (possibleTargets : List SymbolId)
  | dynamic (possibleTargets : List SymbolId)
  | external
  | unresolved

structure CallSite where
  id : CallSiteId
  caller : SymbolId
  callee : CallTarget

namespace CallSite

def getDirectCallee (site : CallSite) : Option SymbolId :=
  match site.callee with
  | .direct function => some function
  | _ => none

def getPossibleCallees (site : CallSite) : List SymbolId :=
  match site.callee with
  | .direct function => [function]
  | .virtual possibleTargets => possibleTargets
  | .dynamic possibleTargets => possibleTargets
  | .external => []
  | .unresolved => []

theorem mem_possibleCallees_of_direct {site : CallSite} {function : SymbolId}
    (direct : site.getDirectCallee = some function) : function ∈ site.getPossibleCallees := by
  unfold getDirectCallee at direct
  unfold getPossibleCallees
  cases target : site.callee with
  | direct callee =>
      rw [target] at direct
      cases direct
      exact List.mem_cons_self
  | virtual possibleTargets =>
      rw [target] at direct
      cases direct
  | dynamic possibleTargets =>
      rw [target] at direct
      cases direct
  | external =>
      rw [target] at direct
      cases direct
  | unresolved =>
      rw [target] at direct
      cases direct

end CallSite

structure StronglyConnectedComponent where
  functions : List SymbolId
  hasCycles : Bool

structure RecursionInfo where
  sccComponents : List StronglyConnectedComponent
  directlyRecursive : OrdMap SymbolId Unit
  mutuallyRecursive : List (List SymbolId)

structure CallGraph where
  callSites : OrdMap CallSiteId CallSite
  functions : OrdMap SymbolId Unit
  directCalls : OrdMap SymbolId (List CallSiteId)
  callers : OrdMap SymbolId (List CallSiteId)
  recursionInfo : RecursionInfo

namespace CallGraph

def new : CallGraph :=
  ⟨OrdMap.empty, OrdMap.empty, OrdMap.empty, OrdMap.empty, ⟨[], OrdMap.empty, []⟩⟩

def addFunction (graph : CallGraph) (function : SymbolId) : CallGraph :=
  { graph with
      functions := graph.functions.insert function ()
      directCalls := graph.directCalls.insert function ((graph.directCalls.get? function).getD []) }

def addCallSite (graph : CallGraph) (site : CallSite) : CallGraph :=
  { graph with
      directCalls := graph.directCalls.insert site.caller
        ((graph.directCalls.get? site.caller).getD [] ++ [site.id])
      callers := match site.getDirectCallee with
        | some callee =>
            graph.callers.insert callee ((graph.callers.get? callee).getD [] ++ [site.id])
        | none => graph.callers
      callSites := graph.callSites.insert site.id site }

inductive Edit where
  | function (function : SymbolId)
  | callSite (site : CallSite)

def apply (graph : CallGraph) : Edit → CallGraph
  | .function function => graph.addFunction function
  | .callSite site => graph.addCallSite site

def build (edits : List Edit) : CallGraph := edits.foldl apply new

def getCallsFrom (graph : CallGraph) (function : SymbolId) : List CallSiteId :=
  (graph.directCalls.get? function).getD []

def getCallSite (graph : CallGraph) (id : CallSiteId) : Option CallSite := graph.callSites.get? id

/-- The callees that the loops over the call sites of a function meet, in order. -/
def possibleCallees (graph : CallGraph) (function : SymbolId) : List SymbolId :=
  ((graph.getCallsFrom function).filterMap graph.getCallSite).flatMap CallSite.getPossibleCallees

def mentioned (graph : CallGraph) : List SymbolId :=
  graph.functions.keys ++ graph.callSites.values.flatMap CallSite.getPossibleCallees

def reachableFunctions (graph : CallGraph) (start : SymbolId) : Option (OrdMap SymbolId Unit) :=
  (Library.discoverWith graph.possibleCallees (fun fresh work => work ++ fresh) (fun _ _ => ())
    (1 + graph.mentioned.length) [start] ([start], ())).map fun found =>
      OrdMap.ofList (found.1.map (·, ()))

def tarjanSccAlgorithm (graph : CallGraph) : Option (List (List SymbolId)) :=
  (Library.tarjan graph.possibleCallees graph.mentioned.length graph.functions.keys).map
    Library.Tarjan.components

/-- A component of one function is asked for a direct call to itself. -/
def sccHasCycles (graph : CallGraph) : List SymbolId → Bool
  | [function] => (graph.getCallsFrom function).any fun id =>
      (graph.getCallSite id).any fun site => site.getDirectCallee = some function
  | _ => true

def addComponent (graph : CallGraph) (info : RecursionInfo) (functions : List SymbolId) :
    RecursionInfo :=
  let component : StronglyConnectedComponent := ⟨functions, graph.sccHasCycles functions⟩
  let recursive :=
    if component.hasCycles then
      match functions with
      | [function] =>
          { info with directlyRecursive := info.directlyRecursive.insert function () }
      | functions => { info with mutuallyRecursive := info.mutuallyRecursive ++ [functions] }
    else info
  { recursive with sccComponents := recursive.sccComponents ++ [component] }

def computeStronglyConnectedComponents (graph : CallGraph) : Option CallGraph :=
  graph.tarjanSccAlgorithm.map fun components =>
    { graph with recursionInfo := components.foldl graph.addComponent graph.recursionInfo }

def isRecursive (graph : CallGraph) (function : SymbolId) : Bool :=
  graph.recursionInfo.directlyRecursive.contains function ||
    graph.recursionInfo.mutuallyRecursive.any fun group => group.contains function

end CallGraph

end Rayzor.Recursion
