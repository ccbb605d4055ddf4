import Rayzor.Recursion.CallGraph

/-!
Contract: what the recursion analysis finds in a call graph.
-/

namespace Rayzor.Recursion

open Library (OrdMap)
open Library.Tarjan (Components IsComponent Reaches)
open Relation (ReflTransGen TransGen)

namespace CallGraph

/-- A call site of the one function may call the other. -/
def Calls (graph : CallGraph) (caller callee : SymbolId) : Prop :=
  callee ∈ graph.possibleCallees caller

/-- A chain of possible callees, empty or not. -/
def Leads (graph : CallGraph) : SymbolId → SymbolId → Prop := ReflTransGen graph.Calls

/-- A chain of possible callees leads from the function back to it. -/
def OnCycle (graph : CallGraph) (function : SymbolId) : Prop := TransGen graph.Calls function function

def Covered (graph : CallGraph) (function : SymbolId) : Prop :=
  ∃ added ∈ graph.functions.keys, graph.Leads added function

def CallsItselfDirectly (graph : CallGraph) (function : SymbolId) : Prop :=
  ∃ id ∈ graph.getCallsFrom function, ∃ site, graph.getCallSite id = some site ∧
    site.getDirectCallee = some function

structure FindsCallCycles (graph analyzed : CallGraph) : Prop where
  disjoint : analyzed.recursionInfo.sccComponents.Pairwise fun left right =>
    left.functions.Disjoint right.functions
  covers : ∀ function, graph.Covered function →
    ∃ component ∈ analyzed.recursionInfo.sccComponents, function ∈ component.functions
  shares : ∀ first second, first ≠ second →
    ((∃ component ∈ analyzed.recursionInfo.sccComponents,
        first ∈ component.functions ∧ second ∈ component.functions) ↔
      graph.Leads first second ∧ graph.Leads second first)
  recursive : ∀ function, analyzed.isRecursive function = true ↔ graph.OnCycle function

/-- A function on a cycle is covered, and if it is alone on its cycles it calls itself directly. -/
def CyclesVisible (graph : CallGraph) : Prop :=
  ∀ function, graph.OnCycle function → graph.Covered function ∧
    ((∃ other, other ≠ function ∧ graph.Leads function other ∧ graph.Leads other function) ∨
      graph.CallsItselfDirectly function)

section Graph

variable {graph : CallGraph} {function : SymbolId}

theorem possibleCallees_subset (graph : CallGraph) (function : SymbolId) :
    graph.possibleCallees function ⊆ graph.mentioned := by
  intro callee member
  obtain ⟨site, isSite, isCallee⟩ := List.mem_flatMap.mp member
  obtain ⟨id, -, found⟩ := List.mem_filterMap.mp isSite
  apply List.mem_append_right
  exact List.mem_flatMap.mpr ⟨site, (graph.callSites.mem_values_iff site).mpr ⟨id, found⟩, isCallee⟩

theorem calls_of_direct (direct : graph.CallsItselfDirectly function) :
    graph.Calls function function := by
  obtain ⟨id, isCall, site, found, isDirect⟩ := direct
  exact List.mem_flatMap.mpr ⟨site, List.mem_filterMap.mpr ⟨id, isCall, found⟩,
    CallSite.mem_possibleCallees_of_direct isDirect⟩

/-- The functions reachable from one are those that chains of possible callees lead to. -/
theorem reachableFunctions_spec (graph : CallGraph) (start : SymbolId) :
    ∃ reachable, graph.reachableFunctions start = some reachable ∧
      ∀ function, function ∈ reachable.keys ↔ graph.Leads start function := by
  have merges : Library.Discovery.Merges fun fresh work : List SymbolId => work ++ fresh :=
    fun fresh work => List.perm_append_comm
  have nodes : ∀ function, graph.possibleCallees function ⊆ graph.mentioned.dedup :=
    fun function callee member => List.mem_dedup.mpr (graph.possibleCallees_subset function member)
  have enough : [start].length + graph.mentioned.dedup.length ≤ 1 + graph.mentioned.length :=
    Nat.add_le_add_left (List.dedup_sublist _).length_le 1
  obtain ⟨final, taken, ends, found⟩ := Library.Discovery.discovered (List.nodup_dedup _) merges
    nodes (List.Subset.refl [start]) (fun _ _ => ()) () enough
  refine ⟨_, congrArg (Option.map _) ends, fun function => ?_⟩
  have listed : (final.1.map (·, ())).map Prod.fst = final.1 := by
    rw [List.map_map]
    exact List.map_id _
  rw [OrdMap.mem_keys_ofList, listed, found.seen, List.mem_singleton]
  simp only [List.mem_singleton, exists_eq_left]
  exact Relation.reflTransGen_iff_eq_or_transGen.symm

theorem tarjanSccAlgorithm_spec (graph : CallGraph) :
    ∃ components, graph.tarjanSccAlgorithm = some components ∧
      Components graph.possibleCallees graph.functions.keys components := by
  obtain ⟨search, ends, components⟩ := Library.Tarjan.tarjan_spec graph.possibleCallees_subset
    (List.subset_append_left _ _) (le_refl graph.mentioned.length)
  exact ⟨_, congrArg (Option.map _) ends, components⟩

theorem sccHasCycles_singleton :
    graph.sccHasCycles [function] = true ↔ graph.CallsItselfDirectly function := by
  unfold sccHasCycles CallsItselfDirectly
  simp only [List.any_eq_true, Option.any_eq_true, decide_eq_true_eq]

def Marked (info : RecursionInfo) (function : SymbolId) : Prop :=
  function ∈ info.directlyRecursive.keys ∨ ∃ group ∈ info.mutuallyRecursive, function ∈ group

theorem isRecursive_iff (graph : CallGraph) (function : SymbolId) :
    graph.isRecursive function = true ↔ Marked graph.recursionInfo function := by
  unfold isRecursive Marked
  rw [Bool.or_eq_true, OrdMap.contains_iff, ← OrdMap.mem_keys_iff, List.any_eq_true]
  simp only [List.contains_iff_mem]

theorem addComponent_components (graph : CallGraph) (info : RecursionInfo)
    (functions : List SymbolId) : (graph.addComponent info functions).sccComponents =
      info.sccComponents ++ [⟨functions, graph.sccHasCycles functions⟩] := by
  unfold addComponent
  cases graph.sccHasCycles functions with
  | false => rfl
  | true => rcases functions with - | ⟨first, - | ⟨second, rest⟩⟩ <;> rfl

theorem marked_addComponent (graph : CallGraph) (info : RecursionInfo)
    (functions : List SymbolId) (function : SymbolId) :
    Marked (graph.addComponent info functions) function ↔
      Marked info function ∨ graph.sccHasCycles functions = true ∧ function ∈ functions := by
  have group : ∀ functions : List SymbolId,
      Marked { info with mutuallyRecursive := info.mutuallyRecursive ++ [functions] } function ↔
        Marked info function ∨ function ∈ functions := by
    intro functions
    unfold Marked
    simp only [List.mem_append, List.mem_singleton, or_and_right, exists_or, exists_eq_left, or_assoc]
  have single : ∀ only : SymbolId,
      Marked { info with directlyRecursive := info.directlyRecursive.insert only () } function ↔
        Marked info function ∨ function ∈ [only] := by
    intro only
    unfold Marked
    simp only [OrdMap.mem_keys_iff, OrdMap.get?_insert, List.mem_singleton]
    by_cases same : function = only
    · simp [same]
    · simp [same]
  unfold addComponent
  cases graph.sccHasCycles functions with
  | false => simp [Marked]
  | true =>
      rw [and_iff_right rfl]
      rcases functions with - | ⟨first, - | ⟨second, rest⟩⟩
      · exact group []
      · exact single first
      · exact group (first :: second :: rest)

theorem foldl_components (graph : CallGraph) (components : List (List SymbolId))
    (info : RecursionInfo) : (components.foldl graph.addComponent info).sccComponents =
      info.sccComponents ++
        components.map fun functions => ⟨functions, graph.sccHasCycles functions⟩ := by
  induction components generalizing info with
  | nil => exact (List.append_nil _).symm
  | cons functions components ih =>
      rw [List.foldl_cons, ih, addComponent_components, List.append_assoc]
      rfl

theorem marked_foldl (graph : CallGraph) (components : List (List SymbolId))
    (info : RecursionInfo) (function : SymbolId) :
    Marked (components.foldl graph.addComponent info) function ↔ Marked info function ∨
      ∃ functions ∈ components, graph.sccHasCycles functions = true ∧ function ∈ functions := by
  induction components generalizing info with
  | nil => simp
  | cons functions components ih =>
      rw [List.foldl_cons, ih, marked_addComponent, List.exists_mem_cons_iff,
        or_assoc]

/-- Additions leave the information as it is. -/
theorem build_recursionInfo (edits : List Edit) : (build edits).recursionInfo = new.recursionInfo := by
  have along : ∀ graph : CallGraph, (edits.foldl apply graph).recursionInfo = graph.recursionInfo := by
    induction edits with
    | nil => exact fun _ => rfl
    | cons edit edits ih =>
        intro graph
        rw [List.foldl_cons, ih]
        cases edit <;> rfl
  exact along new

theorem onCycle_of_mutual {other : SymbolId} (differs : other ≠ function)
    (path : graph.Leads function other) (back : graph.Leads other function) :
    graph.OnCycle function := by
  rcases Relation.reflTransGen_iff_eq_or_transGen.mp path with same | path'
  · exact absurd same differs
  · exact path'.trans_left back

/-- What makes a component of mutually reachable functions be marked as recursive. -/
theorem sccHasCycles_iff {functions : List SymbolId} (distinct : functions.Nodup)
    (isComponent : IsComponent graph.possibleCallees functions) (member : function ∈ functions) :
    graph.sccHasCycles functions = true ↔
      (∃ other, other ≠ function ∧ graph.Leads function other ∧ graph.Leads other function) ∨
        graph.CallsItselfDirectly function := by
  rcases functions with - | ⟨first, - | ⟨second, rest⟩⟩
  · cases member
  · have same := List.mem_singleton.mp member
    subst same
    rw [sccHasCycles_singleton]
    refine (or_iff_right ?_).symm
    rintro ⟨other, differs, path, back⟩
    exact differs (List.mem_singleton.mp ((isComponent function member other).mpr ⟨path, back⟩))
  · refine iff_of_true rfl (Or.inl ?_)
    have apart : first ≠ second := by
      rintro rfl
      exact (List.nodup_cons.mp distinct).1 List.mem_cons_self
    have second' : second ∈ first :: second :: rest := List.mem_cons_of_mem _ List.mem_cons_self
    by_cases same : first = function
    · exact ⟨second, same ▸ apart.symm, (isComponent function member second).mp second'⟩
    · exact ⟨first, same, (isComponent function member first).mp List.mem_cons_self⟩

end Graph

section Analyzed

variable {edits : List Edit} {components : List (List SymbolId)} {analyzed : CallGraph}
  (isComponents : Components (build edits).possibleCallees (build edits).functions.keys components)
  (info : analyzed.recursionInfo =
    components.foldl (build edits).addComponent (build edits).recursionInfo)
include info

theorem sccComponents_eq : analyzed.recursionInfo.sccComponents =
    components.map fun functions => ⟨functions, (build edits).sccHasCycles functions⟩ := by
  rw [info, foldl_components, build_recursionInfo]
  rfl

theorem isRecursive_iff_component (function : SymbolId) : analyzed.isRecursive function = true ↔
    ∃ functions ∈ components, (build edits).sccHasCycles functions = true ∧
      function ∈ functions := by
  rw [isRecursive_iff, info, marked_foldl, build_recursionInfo]
  apply or_iff_right
  rintro (direct | ⟨group, member, -⟩)
  · cases direct
  · cases member

theorem exists_component_iff (holds : List SymbolId → Prop) :
    (∃ component ∈ analyzed.recursionInfo.sccComponents, holds component.functions) ↔
      ∃ functions ∈ components, holds functions := by
  rw [sccComponents_eq info]
  simp

include isComponents

theorem components_disjoint : analyzed.recursionInfo.sccComponents.Pairwise
    fun left right => left.functions.Disjoint right.functions := by
  rw [sccComponents_eq info, List.pairwise_map]
  exact (List.nodup_flatten.mp isComponents.distinct).2

theorem exists_component_of_covered (function : SymbolId) :
    (∃ component ∈ analyzed.recursionInfo.sccComponents, function ∈ component.functions) ↔
      (build edits).Covered function := by
  rw [exists_component_iff info fun functions => function ∈ functions, ← List.mem_flatten]
  exact isComponents.covers function

theorem share_iff (first second : SymbolId) :
    (∃ component ∈ analyzed.recursionInfo.sccComponents,
        first ∈ component.functions ∧ second ∈ component.functions) ↔
      (build edits).Covered first ∧
        (build edits).Leads first second ∧ (build edits).Leads second first := by
  rw [exists_component_iff info fun functions => first ∈ functions ∧ second ∈ functions]
  constructor
  · rintro ⟨functions, member, isFirst, isSecond⟩
    refine ⟨(isComponents.covers first).mp (List.mem_flatten.mpr ⟨functions, member, isFirst⟩), ?_⟩
    exact (isComponents.isComponent functions member first isFirst second).mp isSecond
  · rintro ⟨covered, mutuals⟩
    obtain ⟨functions, member, isFirst⟩ :=
      List.mem_flatten.mp ((isComponents.covers first).mpr covered)
    refine ⟨functions, member, isFirst, ?_⟩
    exact (isComponents.isComponent functions member first isFirst second).mpr mutuals

theorem isRecursive_iff_visible (function : SymbolId) : analyzed.isRecursive function = true ↔
    (build edits).Covered function ∧
      ((∃ other, other ≠ function ∧ (build edits).Leads function other ∧
          (build edits).Leads other function) ∨
        (build edits).CallsItselfDirectly function) := by
  rw [isRecursive_iff_component info]
  have nodups := (List.nodup_flatten.mp isComponents.distinct).1
  constructor
  · rintro ⟨functions, member, hasCycles, isFunction⟩
    have isComponent := isComponents.isComponent functions member
    refine ⟨(isComponents.covers function).mp (List.mem_flatten.mpr ⟨_, member, isFunction⟩), ?_⟩
    exact (sccHasCycles_iff (nodups functions member) isComponent isFunction).mp hasCycles
  · rintro ⟨covered, visible⟩
    obtain ⟨functions, member, isFunction⟩ :=
      List.mem_flatten.mp ((isComponents.covers function).mpr covered)
    have isComponent := isComponents.isComponent functions member
    refine ⟨functions, member, ?_, isFunction⟩
    exact (sccHasCycles_iff (nodups functions member) isComponent isFunction).mpr visible

theorem findsCallCycles_iff :
    FindsCallCycles (build edits) analyzed ↔ (build edits).CyclesVisible := by
  constructor
  · intro finds function onCycle
    apply (isRecursive_iff_visible isComponents info function).mp
    exact (finds.recursive function).mpr onCycle
  · intro visible
    refine ⟨components_disjoint isComponents info, ?_, ?_, ?_⟩
    · exact fun function => (exists_component_of_covered isComponents info function).mpr
    · intro first second differs
      rw [share_iff isComponents info]
      refine and_iff_right_of_imp fun mutuals => ?_
      exact (visible first (onCycle_of_mutual differs.symm mutuals.1 mutuals.2)).1
    · intro function
      rw [isRecursive_iff_visible isComponents info]
      constructor
      · rintro ⟨-, ⟨other, differs, path, back⟩ | direct⟩
        · exact onCycle_of_mutual differs path back
        · exact .single (calls_of_direct direct)
      · exact visible function

end Analyzed

/-- The analysis ends. Its components are disjoint, cover what the added functions lead to and
group those that lead to each other; and it finds all call cycles exactly when every function on
one is covered and, where it is alone on its cycles, calls itself directly. -/
theorem recursion_found_iff (edits : List Edit) :
    ∃ analyzed, (build edits).computeStronglyConnectedComponents = some analyzed ∧
      (FindsCallCycles (build edits) analyzed ↔ (build edits).CyclesVisible) ∧
      (analyzed.recursionInfo.sccComponents.Pairwise fun left right =>
        left.functions.Disjoint right.functions) ∧
      (∀ function, (∃ component ∈ analyzed.recursionInfo.sccComponents,
          function ∈ component.functions) ↔ (build edits).Covered function) ∧
      (∀ first second, (∃ component ∈ analyzed.recursionInfo.sccComponents,
          first ∈ component.functions ∧ second ∈ component.functions) ↔
        (build edits).Covered first ∧
          (build edits).Leads first second ∧ (build edits).Leads second first) := by
  obtain ⟨components, ends, isComponents⟩ := tarjanSccAlgorithm_spec (build edits)
  refine ⟨_, congrArg (Option.map _) ends, ?_⟩
  exact ⟨findsCallCycles_iff isComponents rfl, components_disjoint isComponents rfl,
    exists_component_of_covered isComponents rfl, share_iff isComponents rfl⟩

def virtualRecursion : List Edit := [.function 1, .callSite ⟨1, 1, .virtual [1]⟩]

theorem virtualRecursion_missed : (build virtualRecursion).OnCycle 1 ∧
    ¬∃ analyzed, (build virtualRecursion).computeStronglyConnectedComponents = some analyzed ∧
      FindsCallCycles (build virtualRecursion) analyzed := by
  have onCycle : (build virtualRecursion).OnCycle 1 := by
    apply TransGen.single
    show 1 ∈ (build virtualRecursion).possibleCallees 1
    decide
  refine ⟨onCycle, ?_⟩
  rintro ⟨analyzed, ends, finds⟩
  have answer : ((build virtualRecursion).computeStronglyConnectedComponents).map
      (fun analyzed => analyzed.isRecursive 1) = some false := by decide
  rw [ends, Option.map_some, (finds.recursive 1).mpr onCycle] at answer
  cases answer

end CallGraph

end Rayzor.Recursion
