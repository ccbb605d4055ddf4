import Rayzor.Library.Worklist
import Rayzor.Passes.ConstantFolding
import Rayzor.Ssa.Checked

/-!
Contract: deciding branches on constants, then dropping the blocks no path
reaches any more.

Owns: both passes, and exactly when they leave predecessor lists and phis naming
the edges there are.
-/

namespace Rayzor.Passes.ControlFlow

open Ir Library Ssa

/-! ### `ControlFlowSimplificationPass` -/

def decideBranch (constants : ConstantFolding.Constants) (term : IrTerminator) : IrTerminator :=
  match term with
  | .condBranch condition trueTarget falseTarget =>
      match constants.get? condition with
      | some (.bool value) => .branch (if value then trueTarget else falseTarget)
      | _ => term
  | _ => term

def simplifyConditionalBranches (function : IrFunction) : IrFunction :=
  let constants := ConstantFolding.collectConstants function
  { function with
    cfg := { function.cfg with
      blocks := function.cfg.blocks.mapValues fun _ block =>
        { block with terminator := decideBranch constants block.terminator } } }

/-! ### `UnreachableBlockEliminationPass` -/

def successorsOf (function : IrFunction) (id : IrBlockId) : List IrBlockId :=
  ((function.getBlock id).map (·.successors)).getD []

/-- Each edge puts its target on the worklist at most once. -/
def findReachable (function : IrFunction) : List IrBlockId :=
  explore (successorsOf function) (function.cfg.edges.length + 2) [function.cfg.entryBlock] []

def dropEdgesFrom (reachable : List IrBlockId) (block : IrBasicBlock) : IrBasicBlock :=
  { block with
    predecessors := block.predecessors.filter (· ∈ reachable)
    phiNodes := block.phiNodes.map fun phi =>
      { phi with incoming := phi.incoming.filter fun entry => entry.1 ∈ reachable } }

/-- Lists of edges are cleaned up only when some block was dropped. -/
def eliminateUnreachable (function : IrFunction) : IrFunction :=
  let reachable := findReachable function
  let kept := function.cfg.blocks.filter fun id _ => id ∈ reachable
  let blocks :=
    if kept.entries.length < function.cfg.blocks.entries.length then
      kept.mapValues fun _ block => dropEdgesFrom reachable block
    else kept
  { function with cfg := { function.cfg with blocks } }

/-! ### Consistency -/

/-- Predecessor lists and phis name exactly the sources of the edges. -/
structure EdgesConsistent (function : IrFunction) : Prop where
  predecessors : ∀ {id block}, function.getBlock id = some block → ∀ source,
    source ∈ block.predecessors ↔ BlockEdge function source id
  phis : PhisMatchPredecessors function

def keptTargets (function : IrFunction) (id : IrBlockId) : List IrBlockId :=
  ((function.getBlock id).map fun block =>
    (decideBranch (ConstantFolding.collectConstants function) block.terminator).successors).getD []

/-- A path from the entry takes no edge that is decided away. -/
def Live (function : IrFunction) (id : IrBlockId) : Prop :=
  Relation.ReflTransGen (Worklist.Follows (keptTargets function)) function.cfg.entryBlock id

def OnlyDeadTargetsDropped (function : IrFunction) : Prop :=
  ∀ {source target block}, Live function source → BlockEdge function source target →
    function.getBlock target = some block → Live function target →
    target ∈ keptTargets function source

section Passes

variable {function : IrFunction}

theorem blockEdge_iff {source target : IrBlockId} :
    BlockEdge function source target ↔ target ∈ successorsOf function source := by
  unfold BlockEdge successorsOf
  cases function.getBlock source <;> simp

theorem successors_decideBranch (constants : ConstantFolding.Constants) (term : IrTerminator) :
    (decideBranch constants term).successors ⊆ term.successors := by
  cases term
  case condBranch condition trueTarget falseTarget =>
    simp only [decideBranch]
    split
    · rename_i value _
      cases value <;> simp [IrTerminator.successors]
    · exact List.Subset.refl _
  all_goals exact List.Subset.refl _

theorem keptTargets_subset (source : IrBlockId) :
    keptTargets function source ⊆ successorsOf function source := by
  unfold keptTargets successorsOf
  cases function.getBlock source with
  | none => exact List.Subset.refl _
  | some block => exact successors_decideBranch _ block.terminator

theorem getBlock_simplified (id : IrBlockId) :
    (simplifyConditionalBranches function).getBlock id =
      (function.getBlock id).map fun block =>
        { block with
          terminator :=
            decideBranch (ConstantFolding.collectConstants function) block.terminator } :=
  OrdMap.get?_mapValues _ _ id

theorem successorsOf_simplified :
    successorsOf (simplifyConditionalBranches function) = keptTargets function := by
  funext id
  unfold successorsOf keptTargets
  rw [getBlock_simplified, Option.map_map]
  rfl

/-- The worklist never runs out of steps. -/
theorem remaining_lt_fuel : Worklist.remaining (successorsOf function) function.cfg.blocks.keys
    [function.cfg.entryBlock] [] < function.cfg.edges.length + 2 := by
  have everyNode : function.cfg.blocks.keys.filter (· ∉ ([] : List IrBlockId)) =
      function.cfg.blocks.keys := by simp
  have perNode : ∀ entry ∈ function.cfg.blocks.entries,
      (successorsOf function entry.1).length = entry.2.successors.length := by
    intro entry member
    have found := getBlock_eq_some_iff.mpr member
    simp [successorsOf, found]
  have total : (function.cfg.blocks.keys.map fun id => (successorsOf function id).length).sum =
      function.cfg.edges.length := by
    rw [OrdMap.keys, List.map_map, IrControlFlowGraph.edges, List.length_flatMap]
    refine congrArg List.sum (List.map_congr_left fun entry member => ?_)
    rw [List.length_map]
    exact perNode entry member
  rw [Worklist.remaining, everyNode, total, List.length_singleton]
  omega

theorem mem_findReachable_iff {id : IrBlockId} :
    id ∈ findReachable function ↔
      Relation.ReflTransGen (Worklist.Follows (successorsOf function))
        function.cfg.entryBlock id := by
  have outside : ∀ node ∉ function.cfg.blocks.keys, successorsOf function node = [] := by
    intro node absent
    unfold successorsOf
    cases found : function.getBlock node with
    | none => rfl
    | some block => exact absurd ((OrdMap.mem_keys_iff _ node).mpr ⟨block, found⟩) absent
  rw [findReachable, Worklist.mem_explore_iff (OrdMap.keys_nodup _) outside remaining_lt_fuel]
  simp

theorem mem_findReachable_simplified_iff {id : IrBlockId} :
    id ∈ findReachable (simplifyConditionalBranches function) ↔ Live function id := by
  rw [mem_findReachable_iff, successorsOf_simplified]
  rfl

/-- What is done to a block that is left. -/
def cleaned (function : IrFunction) (block : IrBasicBlock) : IrBasicBlock :=
  let reachable := findReachable function
  if (function.cfg.blocks.filter fun id _ => id ∈ reachable).entries.length <
      function.cfg.blocks.entries.length then dropEdgesFrom reachable block
  else block

theorem getBlock_eliminated (id : IrBlockId) :
    (eliminateUnreachable function).getBlock id =
      if id ∈ findReachable function then (function.getBlock id).map (cleaned function)
      else none := by
  have filtered : (function.cfg.blocks.filter fun id _ => id ∈ findReachable function).get? id =
      if id ∈ findReachable function then function.getBlock id else none := by
    rw [OrdMap.get?_filter]
    change Option.filter (fun _ => decide (id ∈ findReachable function)) (function.getBlock id) = _
    by_cases live : id ∈ findReachable function
    · rw [if_pos live]
      cases function.getBlock id <;> simp [live]
    · rw [if_neg live]
      cases function.getBlock id <;> simp [live]
  simp only [eliminateUnreachable, IrFunction.getBlock, IrControlFlowGraph.getBlock]
  split_ifs with dropped live live
  · rw [OrdMap.get?_mapValues, filtered, if_pos live]
    refine congrArg (Option.map · _) (funext fun block => ?_)
    simp only [cleaned, if_pos dropped]
  · rw [OrdMap.get?_mapValues, filtered, if_neg live]
    rfl
  · rw [filtered, if_pos live]
    have same : cleaned function = fun block => block := by
      funext block
      simp only [cleaned, if_neg dropped]
    rw [same, Option.map_id']
    rfl
  · rw [filtered, if_neg live]

theorem reachable_of_kept
    (kept : ¬(function.cfg.blocks.filter fun id _ => id ∈ findReachable function).entries.length <
      function.cfg.blocks.entries.length) {id : IrBlockId} {block : IrBasicBlock}
    (found : function.getBlock id = some block) : id ∈ findReachable function := by
  by_contra dead
  refine kept (List.length_filter_lt_length_iff_exists.mpr ?_)
  exact ⟨(id, block), getBlock_eq_some_iff.mp found, by simpa using dead⟩

section Cleaned

variable {block : IrBasicBlock}

theorem terminator_cleaned : (cleaned function block).terminator = block.terminator := by
  simp only [cleaned]
  split_ifs <;> rfl

theorem mem_predecessors_cleaned
    (exist : ∀ source ∈ block.predecessors, ∃ other, function.getBlock source = some other)
    (source : IrBlockId) : source ∈ (cleaned function block).predecessors ↔
      source ∈ block.predecessors ∧ source ∈ findReachable function := by
  simp only [cleaned]
  split_ifs with dropped
  · simp [dropEdgesFrom]
  · refine ⟨fun member => ⟨member, ?_⟩, And.left⟩
    obtain ⟨other, found⟩ := exist source member
    exact reachable_of_kept dropped found

theorem phi_of_cleaned {phi : IrPhiNode} (member : phi ∈ (cleaned function block).phiNodes)
    (exist : ∀ old ∈ block.phiNodes, ∀ source ∈ old.incoming.map Prod.fst,
      ∃ other, function.getBlock source = some other) :
    ∃ old ∈ block.phiNodes, ∀ source, source ∈ phi.incoming.map Prod.fst ↔
      source ∈ old.incoming.map Prod.fst ∧ source ∈ findReachable function := by
  simp only [cleaned] at member
  split_ifs at member with dropped
  · obtain ⟨old, listed, rfl⟩ := List.mem_map.mp member
    refine ⟨old, listed, fun source => ?_⟩
    simp only [List.mem_map, List.mem_filter, decide_eq_true_eq]
    constructor
    · rintro ⟨entry, ⟨inside, live⟩, rfl⟩
      exact ⟨⟨entry, inside, rfl⟩, live⟩
    · rintro ⟨⟨entry, inside, rfl⟩, live⟩
      exact ⟨entry, ⟨inside, live⟩, rfl⟩
  · refine ⟨phi, member, fun source => ⟨fun inside => ⟨inside, ?_⟩, And.left⟩⟩
    obtain ⟨other, found⟩ := exist phi member source inside
    exact reachable_of_kept dropped found

end Cleaned

/-- The function both passes leave. -/
def simplified (function : IrFunction) : IrFunction :=
  eliminateUnreachable (simplifyConditionalBranches function)

theorem getBlock_result {id : IrBlockId} {block' : IrBasicBlock} :
    (simplified function).getBlock id = some block' ↔ Live function id ∧
      ∃ block, function.getBlock id = some block ∧
        block' = cleaned (simplifyConditionalBranches function)
          { block with
            terminator :=
              decideBranch (ConstantFolding.collectConstants function) block.terminator } := by
  rw [simplified, getBlock_eliminated, getBlock_simplified]
  split_ifs with live
  · rw [mem_findReachable_simplified_iff] at live
    simp [live, eq_comm]
  · rw [mem_findReachable_simplified_iff] at live
    simp [live]

theorem blockEdge_result {source target : IrBlockId} :
    BlockEdge (simplified function) source target ↔
      Live function source ∧ target ∈ keptTargets function source := by
  unfold BlockEdge keptTargets
  constructor
  · rintro ⟨block', found, edge⟩
    obtain ⟨live, block, inFunction, rfl⟩ := getBlock_result.mp found
    rw [IrBasicBlock.successors, terminator_cleaned] at edge
    refine ⟨live, ?_⟩
    rw [inFunction]
    exact edge
  · rintro ⟨live, edge⟩
    cases inFunction : function.getBlock source with
    | none =>
        rw [inFunction] at edge
        exact absurd edge List.not_mem_nil
    | some block =>
        rw [inFunction] at edge
        refine ⟨_, getBlock_result.mpr ⟨live, block, inFunction, rfl⟩, ?_⟩
        rw [IrBasicBlock.successors, terminator_cleaned]
        exact edge

theorem exists_of_edge {source target : IrBlockId} (edge : BlockEdge function source target) :
    ∃ other, (simplifyConditionalBranches function).getBlock source = some other := by
  obtain ⟨block, found, -⟩ := edge
  exact ⟨_, by rw [getBlock_simplified, found, Option.map_some]⟩

/-- The two passes leave predecessor lists and phis consistent exactly when no
live block loses its edge to a block that stays live. -/
theorem edgesConsistent_simplified_iff (consistent : EdgesConsistent function) :
    EdgesConsistent (simplified function) ↔ OnlyDeadTargetsDropped function := by
  have listed : ∀ {id block}, function.getBlock id = some block → Live function id →
      ∀ source, source ∈ (cleaned (simplifyConditionalBranches function)
          { block with
            terminator :=
              decideBranch (ConstantFolding.collectConstants function)
                block.terminator }).predecessors ↔
        BlockEdge function source id ∧ Live function source := by
    intro id block found _ source
    rw [mem_predecessors_cleaned, mem_findReachable_simplified_iff,
      consistent.predecessors found]
    exact fun other member => exists_of_edge ((consistent.predecessors found other).mp member)
  constructor
  · intro after source target block liveSource edge found liveTarget
    have inResult := getBlock_result.mpr ⟨liveTarget, block, found, rfl⟩
    have recorded := (listed found liveTarget source).mpr ⟨edge, liveSource⟩
    exact (blockEdge_result.mp ((after.predecessors inResult source).mp recorded)).2
  · intro onlyDead
    have edges : ∀ {id block}, function.getBlock id = some block → Live function id →
        ∀ source, BlockEdge function source id ∧ Live function source ↔
          BlockEdge (simplified function) source id := by
      intro id block found live source
      rw [blockEdge_result]
      constructor
      · exact fun ⟨edge, liveSource⟩ => ⟨liveSource, onlyDead liveSource edge found live⟩
      · exact fun ⟨liveSource, kept⟩ =>
          ⟨blockEdge_iff.mpr (keptTargets_subset source kept), liveSource⟩
    constructor
    · intro id block' found' source
      obtain ⟨live, block, found, rfl⟩ := getBlock_result.mp found'
      rw [listed found live, edges found live]
    · intro id block' phi' found' member source
      obtain ⟨live, block, found, rfl⟩ := getBlock_result.mp found'
      have sources : ∀ old ∈ block.phiNodes, ∀ source, source ∈ old.incoming.map Prod.fst ↔
          BlockEdge function source id := fun old inBlock => consistent.phis found inBlock
      obtain ⟨old, inBlock, same⟩ := phi_of_cleaned member fun old inBlock source inside =>
        exists_of_edge ((sources old inBlock source).mp inside)
      rw [same, sources old inBlock, mem_findReachable_simplified_iff, edges found live]

end Passes

/-! ### A branch on `true`, to a block on its own and to one that is joined -/

theorem EdgesConsistent.of_checked {function : IrFunction}
    (predecessors : predecessorsChecked function = true) (phis : phisChecked function = true) :
    EdgesConsistent function where
  predecessors := by
    intro id block found source
    have consistent := predecessorsConsistent_of_checked predecessors
    refine ⟨consistent.actual found, fun edge => ?_⟩
    obtain ⟨other, foundOther, recorded⟩ := consistent.recorded edge
    cases found.symm.trans foundOther
    exact recorded
  phis := phisMatch_of_checked phis

/-- `if true` around block 1, which goes on to `after` or returns. -/
def branchOnTrue (after : IrTerminator) (joined : IrBasicBlock) : IrFunction where
  name := "branch"
  signature :=
    { parameters := [], returnType := .bool, callingConvention := .haxe, typeParams := [],
      usesSret := false }
  cfg :=
    { blocks := OrdMap.ofList [
        (0, { instructions := [.const 0 (.bool true)], terminator := .condBranch 0 1 2 }),
        (1, { instructions := [.const 1 (.bool false)], terminator := after,
              predecessors := [0] }),
        (2, joined)],
      entryBlock := 0, nextBlockId := 3 }
  locals := .empty
  registerTypes := OrdMap.ofList [(0, .bool), (1, .bool), (2, .bool)]
  externalLinkage := false
  nextRegId := 3
  typeParamTagFixups := []
  typeParamMetadataFixups := []

/-- The other block is reached only by the branch, and goes with it. -/
def lonelyTarget : IrFunction :=
  branchOnTrue (.ret (some 1)) { terminator := .ret (some 0), predecessors := [0] }

/-- The other block is also reached from block 1. -/
def joinedTarget : IrFunction :=
  branchOnTrue (.branch 2)
    { terminator := .ret (some 2), predecessors := [0, 1],
      phiNodes := [{ dest := 2, incoming := [(0, 0), (1, 1)], ty := .bool }] }

theorem lonelyTarget_consistent : EdgesConsistent (simplified lonelyTarget) := by
  refine (edgesConsistent_simplified_iff (.of_checked (by decide) (by decide))).mpr ?_
  intro source target block liveSource edge found liveTarget
  have live : findReachable (simplifyConditionalBranches lonelyTarget) = [1, 0] := rfl
  rw [← mem_findReachable_simplified_iff, live] at liveSource liveTarget
  rw [blockEdge_iff] at edge
  simp only [List.mem_cons, List.not_mem_nil, or_false] at liveSource liveTarget
  rcases liveSource with rfl | rfl <;> rcases liveTarget with rfl | rfl <;> revert edge <;> decide

/-- The joined block keeps its phi entry and its predecessor for the edge that
was decided away. -/
theorem joinedTarget_inconsistent :
    EdgesConsistent joinedTarget ∧ ¬EdgesConsistent (simplified joinedTarget) := by
  refine ⟨.of_checked (by decide) (by decide), fun consistent => ?_⟩
  obtain ⟨block, found, listed⟩ : ∃ block, (simplified joinedTarget).getBlock 2 = some block ∧
      0 ∈ block.predecessors := ⟨_, rfl, by decide⟩
  have edge := (consistent.predecessors found 0).mp listed
  rw [blockEdge_iff] at edge
  revert edge
  decide

end Rayzor.Passes.ControlFlow
