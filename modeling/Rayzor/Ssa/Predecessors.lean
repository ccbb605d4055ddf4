import Rayzor.Ssa.Checked

/-!
Contract: predecessor lists computed afresh.
-/

namespace Rayzor.Ssa

open Ir Library

def sourcesOf (edges : List (IrBlockId × IrBlockId)) (sources : List IrBlockId)
    (target : IrBlockId) : List IrBlockId :=
  edges.foldl (fun sources edge =>
    if edge.2 = target ∧ edge.1 ∉ sources then sources ++ [edge.1] else sources) sources

theorem mem_sourcesOf {edges : List (IrBlockId × IrBlockId)} {sources : List IrBlockId}
    {source target : IrBlockId} :
    source ∈ sourcesOf edges sources target ↔ source ∈ sources ∨ (source, target) ∈ edges := by
  induction edges generalizing sources with
  | nil => simp [sourcesOf]
  | cons edge rest ih =>
      obtain ⟨first, second⟩ := edge
      have unfolded : sourcesOf ((first, second) :: rest) sources target =
          sourcesOf rest (if second = target ∧ first ∉ sources then sources ++ [first]
            else sources) target := rfl
      rw [unfolded, ih, List.mem_cons, Prod.mk.injEq]
      split_ifs with isNew
      · obtain ⟨rfl, -⟩ := isNew
        simp [or_assoc]
      · by_cases onto : second = target
        · have already : first ∈ sources := by
            by_contra fresh
            exact isNew ⟨onto, fresh⟩
          constructor
          · rintro (listed | later)
            · exact Or.inl listed
            · exact Or.inr (Or.inr later)
          · rintro (listed | ⟨rfl, -⟩ | later)
            · exact Or.inl listed
            · exact Or.inl already
            · exact Or.inr later
        · simp [Ne.symm onto]

section Recomputed

variable {cfg : IrControlFlowGraph}

theorem getBlock_connectAll (edges : List (IrBlockId × IrBlockId)) (id : IrBlockId) :
    (edges.foldl (fun acc edge => acc.connectBlocks edge.1 edge.2) cfg).getBlock id =
      (cfg.getBlock id).map fun block =>
        { block with predecessors := sourcesOf edges block.predecessors id } := by
  induction edges generalizing cfg with
  | nil => simp [sourcesOf]
  | cons edge rest ih =>
      rw [List.foldl_cons, ih, IrControlFlowGraph.connectBlocks,
        IrControlFlowGraph.getBlock_modifyBlock]
      split_ifs with here
      · rw [Option.map_map]
        refine congrArg (Option.map · _) (funext fun block => ?_)
        simp only [Function.comp, sourcesOf, List.foldl_cons, here, true_and,
          IrControlFlowGraph.addPredecessor]
        split_ifs <;> rfl
      · refine congrArg (Option.map · _) (funext fun block => ?_)
        simp only [sourcesOf, List.foldl_cons, Ne.symm here, false_and, if_false]

theorem entryBlock_recompute : cfg.recomputePredecessors.entryBlock = cfg.entryBlock := by
  have kept : ∀ (edges : List (IrBlockId × IrBlockId)) (cfg : IrControlFlowGraph),
      (edges.foldl (fun acc edge => acc.connectBlocks edge.1 edge.2) cfg).entryBlock =
        cfg.entryBlock := by
    intro edges
    induction edges with
    | nil => exact fun _ => rfl
    | cons edge rest ih => exact fun _ => ih _
  exact kept cfg.edges _

theorem getBlock_recompute (id : IrBlockId) :
    cfg.recomputePredecessors.getBlock id =
      (cfg.getBlock id).map fun block =>
        { block with predecessors := sourcesOf cfg.edges [] id } := by
  have cleared : ({ cfg with
      blocks := cfg.blocks.mapValues fun _ block =>
        { block with predecessors := [] } } : IrControlFlowGraph).getBlock id =
      (cfg.getBlock id).map fun block => { block with predecessors := [] } :=
    OrdMap.get?_mapValues _ _ id
  rw [IrControlFlowGraph.recomputePredecessors, getBlock_connectAll, cleared, Option.map_map]
  rfl

theorem mem_edges_iff {source target : IrBlockId} :
    (source, target) ∈ cfg.edges ↔
      ∃ block, cfg.getBlock source = some block ∧ target ∈ block.successors := by
  simp only [IrControlFlowGraph.edges, List.mem_flatMap, List.mem_map, Prod.exists,
    IrControlFlowGraph.getBlock, ← OrdMap.mem_entries_iff]
  constructor
  · rintro ⟨_, block, member, _, successor, same⟩
    cases same
    exact ⟨block, member, successor⟩
  · rintro ⟨block, member, successor⟩
    exact ⟨source, block, member, target, successor, rfl⟩

/-- Fresh lists name exactly the sources of the edges. -/
theorem consistent_recompute {function : IrFunction} {cfg : IrControlFlowGraph}
    (isCfg : function.cfg = cfg.recomputePredecessors)
    (closed : ∀ {source target block}, cfg.getBlock source = some block →
      target ∈ block.successors → ∃ block', cfg.getBlock target = some block') :
    PredecessorsConsistent function := by
  have lookup : ∀ id, function.getBlock id = (cfg.getBlock id).map fun block =>
      { block with predecessors := sourcesOf cfg.edges [] id } := by
    intro id
    rw [IrFunction.getBlock, isCfg, getBlock_recompute]
  have sameEdges : ∀ {source target}, BlockEdge function source target ↔
      (source, target) ∈ cfg.edges := by
    intro source target
    rw [mem_edges_iff, BlockEdge]
    constructor
    · rintro ⟨block, found, successor⟩
      rw [lookup] at found
      obtain ⟨old, inCfg, rfl⟩ := Option.map_eq_some_iff.mp found
      exact ⟨old, inCfg, successor⟩
    · rintro ⟨block, found, successor⟩
      refine ⟨{ block with predecessors := sourcesOf cfg.edges [] source }, ?_, successor⟩
      rw [lookup, found, Option.map_some]
  constructor
  · intro source target edge
    have listed := sameEdges.mp edge
    obtain ⟨block, found, successor⟩ := mem_edges_iff.mp listed
    obtain ⟨block', found'⟩ := closed found successor
    exact ⟨_, by rw [lookup, found', Option.map_some], mem_sourcesOf.mpr (Or.inr listed)⟩
  · intro source target block found listed
    rw [lookup] at found
    obtain ⟨old, -, rfl⟩ := Option.map_eq_some_iff.mp found
    exact sameEdges.mpr ((mem_sourcesOf.mp listed).resolve_left List.not_mem_nil)

end Recomputed

end Rayzor.Ssa
