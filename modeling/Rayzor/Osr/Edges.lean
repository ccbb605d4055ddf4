import Rayzor.Osr.Prologue

/-!
Contract: the edges of a variant go through when those of the function do, and
stop for the same reason otherwise.
-/

namespace Rayzor.Osr

open Ir Library Analysis Interp Ssa

/-- Whether a result is there, and what stopped it if not. -/
def settled {ε α : Type} (result : Except ε α) : Except ε Unit := result.map fun _ => ()

theorem settled_bind {ε α β γ δ : Type} {first : Except ε α} {second : Except ε β}
    {next : α → Except ε γ} {next' : β → Except ε δ} (same : settled first = settled second)
    (onwards : ∀ a b, first = .ok a → second = .ok b → settled (next a) = settled (next' b)) :
    settled (first >>= next) = settled (second >>= next') := by
  cases first with
  | error stop =>
      cases second with
      | error stop' =>
          cases same
          rfl
      | ok _ => cases same
  | ok a =>
      cases second with
      | error _ => cases same
      | ok b => exact onwards a b rfl rfl

theorem settled_mapM {ε α β γ : Type} {inputs : List α} {compute : α → Except ε β}
    {compute' : α → Except ε γ}
    (same : ∀ input ∈ inputs, settled (compute input) = settled (compute' input)) :
    settled (inputs.mapM compute) = settled (inputs.mapM compute') := by
  induction inputs with
  | nil => rfl
  | cons input rest ih =>
      rw [List.mapM_cons, List.mapM_cons]
      refine settled_bind (same input List.mem_cons_self) fun _ _ _ _ => ?_
      refine settled_bind (ih fun other later =>
        same other (List.mem_cons_of_mem _ later)) fun _ _ _ _ => rfl

theorem mapM_ok_of_forall {ε α β : Type} {inputs : List α} {compute : α → Except ε β}
    (each : ∀ input ∈ inputs, ∃ output, compute input = .ok output) :
    ∃ outputs, inputs.mapM compute = .ok outputs := by
  induction inputs with
  | nil => exact ⟨[], rfl⟩
  | cons input rest ih =>
      obtain ⟨output, isOutput⟩ := each input List.mem_cons_self
      obtain ⟨others, isOthers⟩ := ih fun other later =>
        each other (List.mem_cons_of_mem _ later)
      refine ⟨output :: others, ?_⟩
      rw [List.mapM_cons, isOutput, isOthers]
      rfl

theorem ok_of_settled {ε α β : Type} {first : Except ε α} {second : Except ε β}
    (same : settled first = settled second) {value : α} (isOk : first = .ok value) :
    ∃ value', second = .ok value' := by
  subst isOk
  cases second with
  | error _ => cases same
  | ok value' => exact ⟨value', rfl⟩

theorem error_of_settled {ε α β : Type} {first : Except ε α} {second : Except ε β}
    (same : settled first = settled second) {stop : ε} (isError : first = .error stop) :
    second = .error stop := by
  subst isError
  cases second with
  | error _ =>
      cases same
      rfl
  | ok _ => cases same

theorem exists_right {α β : Type} {Related : α → β → Prop} {left : List α} {right : List β}
    (related : List.Forall₂ Related left right) {a : α} (member : a ∈ left) :
    ∃ b ∈ right, Related a b := by
  induction related with
  | nil => cases member
  | cons first _ ih =>
      rcases List.mem_cons.mp member with rfl | later
      · exact ⟨_, List.mem_cons_self, first⟩
      · obtain ⟨b, inRest, same⟩ := ih later
        exact ⟨b, List.mem_cons_of_mem _ inRest, same⟩

theorem exists_left {α β : Type} {Related : α → β → Prop} {left : List α} {right : List β}
    (related : List.Forall₂ Related left right) {b : β} (member : b ∈ right) :
    ∃ a ∈ left, Related a b :=
  exists_right related.flip member

/-- A move of the variant into the same phi, of a register that holds the same. -/
structure SameMove (regs regs' : Regs) (move move' : IrPhiNode × IrId) : Prop where
  dest : move'.1.dest = move.1.dest
  ty : move'.1.ty = move.1.ty
  value : regs' move'.2 = regs move.2

/-- Moves that always give a word do not decide whether an edge goes through. -/
theorem settled_takeMoves {regs regs' : Regs} {moves own merges : List (IrPhiNode × IrId)}
    (same : List.Forall₂ (SameMove regs regs') moves own)
    (merged : ∀ after, takeMoves regs moves = .ok after → ∀ move ∈ merges,
      ∃ word, phiWord move.1.ty (regs' move.2) = .ok word) :
    settled (takeMoves regs moves) = settled (takeMoves regs' (own ++ merges)) := by
  have words : moves.mapM (fun move => phiWord move.1.ty (regs move.2)) =
      own.mapM fun move => phiWord move.1.ty (regs' move.2) :=
    mapM_congr (same.imp fun _ _ isSame => by rw [isSame.ty, isSame.value])
  cases ownWords : own.mapM fun move => phiWord move.1.ty (regs' move.2) with
  | error stop =>
      unfold takeMoves
      rw [words, List.mapM_append, ownWords]
      rfl
  | ok found =>
      have goes : takeMoves regs moves =
          .ok (regs.setAll ((moves.map (·.1.dest)).zip found)) := by
        unfold takeMoves
        rw [words, ownWords]
        rfl
      have collected : ∃ others, merges.mapM (fun move => phiWord move.1.ty (regs' move.2)) =
          .ok others := mapM_ok_of_forall (merged _ goes)
      obtain ⟨others, isOthers⟩ := collected
      unfold takeMoves
      rw [words, List.mapM_append, ownWords, isOthers]
      rfl

/-- What an edge does when it goes through, whatever else the terminator decodes. -/
theorem transfer_eq_ok {function : IrFunction} {source target : IrBlockId} {term : IrTerminator}
    {regs regs' : Regs} : transfer function source term target regs = .ok regs' ↔
      (∃ all, term.successors.mapM (edgeMoves function source) = .ok all) ∧
        ∃ moves, edgeMoves function source target = .ok moves ∧ takeMoves regs moves = .ok regs' := by
  unfold Rayzor.Interp.transfer
  simp only [bind_eq_ok]
  constructor
  · rintro ⟨all, decoded, moves, listed, taken⟩
    exact ⟨⟨all, decoded⟩, moves, listed, taken⟩
  · rintro ⟨⟨all, decoded⟩, moves, listed, taken⟩
    exact ⟨all, decoded, moves, listed, taken⟩

theorem settled_transfer {function function' : IrFunction} {source target : IrBlockId}
    {term term' : IrTerminator} {regs regs' : Regs} (successors : term'.successors = term.successors)
    (decoded : ∀ successor ∈ term.successors,
      settled (edgeMoves function source successor) = settled (edgeMoves function' source successor))
    (goesThere : target ∈ term.successors)
    (taken : ∀ all moves moves', term.successors.mapM (edgeMoves function source) = .ok all →
      edgeMoves function source target = .ok moves →
      edgeMoves function' source target = .ok moves' →
      settled (takeMoves regs moves) = settled (takeMoves regs' moves')) :
    settled (transfer function source term target regs) =
      settled (transfer function' source term' target regs') := by
  unfold Rayzor.Interp.transfer
  rw [successors]
  refine settled_bind (settled_mapM decoded) fun all _ isAll _ => ?_
  exact settled_bind (decoded target goesThere) fun moves moves' => taken all moves moves' isAll

section Edges

variable {function variant : IrFunction} {header : IrBlockId} {relaxed : Bool}
  {result : OsrLayout} {headerBlock : IrBasicBlock} {lives : List OsrSlot}

/-- The moves into the merging phis along an edge of the region. -/
def mergeMoves (function : IrFunction) (result : OsrLayout) (source target : IrBlockId) :
    List (IrPhiNode × IrId) :=
  if target = result.header then
    (redefinedOf function result).map fun value =>
      ((carrierOf function result).mergePhi value,
        ((carrierOf function result).reaching value source).getD value.reg)
  else []

structure RegionMove (function : IrFunction) (result : OsrLayout) (source : IrBlockId)
    (move move' : IrPhiNode × IrId) : Prop where
  dest : move'.1.dest = move.1.dest
  ty : move'.1.ty = move.1.ty
  value : move'.2 =
    (carrierOf function result).rename (redefinedOf function result) source move.2

theorem mergePhi_valueFrom {function : IrFunction} {result : OsrLayout} {value : Redefined} {source : IrBlockId}
    (member : source ∈ (carrierOf function result).headerPreds) :
    ((carrierOf function result).mergePhi value).valueFrom source =
      some (((carrierOf function result).reaching value source).getD value.reg) := by
  have inner : ((carrierOf function result).entry == source) = false := by
    refine beq_false_of_ne fun same => ?_
    have notEntry := (List.mem_filter.mp member).2
    rw [bne_iff_ne] at notEntry
    exact notEntry same.symm
  rw [IrPhiNode.valueFrom, Carrier.mergePhi, List.find?_cons, inner]
  simp only
  rw [← Carrier.headerPreds]
  generalize (carrierOf function result).headerPreds = preds at member
  induction preds with
  | nil => cases member
  | cons pred rest ih =>
      rw [List.map_cons, List.find?_cons]
      by_cases same : pred = source
      · subst same
        simp
      · have different : (pred == source) = false := beq_false_of_ne same
        simp only [different]
        exact ih ((List.mem_cons.mp member).resolve_left (Ne.symm same))

theorem redefined_phis_distinct (function : IrFunction) (result : OsrLayout) :
    ((redefinedOf function result).map (·.phi)).Nodup := by
  have isLoads := loads_spec function result
  have increasing := (List.pairwise_flatMap.mp isLoads.increasing).2
  have isFresh : ∀ {load : SlotLoad} {value : Redefined}, load ∈ (layoutLoads function result).1 →
      load.redefined = some value → value.phi ∈ load.fresh := by
    intro load value inLoads made
    obtain ⟨merged, isMerged, rfl⟩ := Option.map_eq_some_iff.mp made
    cases isParam : load.slot.param with
    | headerPhi reg =>
        rw [(isLoads.loadedAs load inLoads).phi reg isParam] at isMerged
        cases isMerged
    | live reg => simp [SlotLoad.fresh, isParam, isMerged]
  unfold redefinedOf
  refine List.pairwise_map.mpr (List.pairwise_filterMap.mpr ?_)
  refine increasing.imp_of_mem ?_
  intro first second inFirst inSecond below value made value' made' same
  exact ne_of_lt (below _ (isFresh inFirst made) _ (isFresh inSecond made')) same

variable (resumption : Resumption function header relaxed result headerBlock lives variant)
include resumption

theorem Resumption.edge_variant {source target : IrBlockId}
    (inside : source ∈ blocksReachableFrom function result.header)
    (edge : BlockEdge function source target) : BlockEdge variant source target := by
  obtain ⟨block, isBlock, successor⟩ := edge
  obtain ⟨block', inVariant, region⟩ := resumption.getBlock_region inside isBlock
  refine ⟨block', inVariant, ?_⟩
  rw [IrBasicBlock.successors, region.terminator, IrTerminator.successors_renameUses]
  exact successor

theorem Resumption.mem_headerPreds {source : IrBlockId}
    (inside : source ∈ blocksReachableFrom function result.header)
    (edge : BlockEdge function source result.header) :
    source ∈ (carrierOf function result).headerPreds := by
  obtain ⟨block, found, listed⟩ := resumption.consistent_entered.recorded
    (resumption.edge_entered (resumption.edge_variant inside edge))
  refine List.mem_filter.mpr ⟨?_, ?_⟩
  · rw [IrFunction.getBlock] at found
    change source ∈ predecessorsOf (enteredVariant function result).cfg result.header
    rw [predecessorsOf, found]
    exact listed
  · refine bne_iff_ne.mpr fun same => ?_
    have isEntry : source = osrEntryId function := same
    exact resumption.entry_notMem (isEntry ▸ inside)

theorem Resumption.edgeMoves_variant {source target : IrBlockId}
    (inside : source ∈ blocksReachableFrom function result.header)
    (edge : BlockEdge function source target) :
    edgeMoves function source target = .error .missingIncoming ∧
        edgeMoves variant source target = .error .missingIncoming ∨
      ∃ moves own, edgeMoves function source target = .ok moves ∧
        edgeMoves variant source target = .ok (own ++ mergeMoves function result source target) ∧
        List.Forall₂ (RegionMove function result source) moves own := by
  have targetInside := resumption.successor_mem inside edge
  obtain ⟨block, isBlock⟩ := exists_block targetInside
  obtain ⟨block', inVariant, region⟩ := resumption.getBlock_region targetInside isBlock
  obtain ⟨own, phis, related⟩ := region.phis
  have merges : ((carrierOf function result).mergePhis (redefinedOf function result) target).mapM
      (phiMove source) = .ok (mergeMoves function result source target) := by
    unfold Carrier.mergePhis mergeMoves
    by_cases isHeader : target = result.header
    · subst isHeader
      have isPred := resumption.mem_headerPreds inside edge
      rw [if_pos rfl, if_pos (show result.header = (carrierOf function result).header from rfl),
        mapM_eq_ok, List.forall₂_map_left_iff, List.forall₂_map_right_iff]
      refine List.forall₂_same.mpr fun value _ => ?_
      exact phiMove_eq_ok.mpr ⟨mergePhi_valueFrom isPred, rfl⟩
    · rw [if_neg isHeader, if_neg (show target ≠ (carrierOf function result).header from isHeader)]
      rfl
  have moves : block.phiNodes.mapM (phiMove source) = .error .missingIncoming ∧
        own.mapM (phiMove source) = .error .missingIncoming ∨
      ∃ moves moves', block.phiNodes.mapM (phiMove source) = .ok moves ∧
        own.mapM (phiMove source) = .ok moves' ∧
        List.Forall₂ (RegionMove function result source) moves moves' := by
    clear phis merges region isBlock
    generalize block.phiNodes = original at related
    induction related with
    | nil => exact Or.inr ⟨[], [], rfl, rfl, .nil⟩
    | @cons phi phi' rest rest' isPhi _ ih =>
        simp only [List.mapM_cons]
        have value := isPhi.inside source inside
        cases isValue : phi.valueFrom source with
        | none =>
            rw [isValue] at value
            simp only [phiMove, isValue, value, Option.map_none]
            exact Or.inl ⟨rfl, rfl⟩
        | some reg =>
            rw [isValue] at value
            simp only [phiMove, isValue, value, Option.map_some]
            rcases ih with ⟨stops, stops'⟩ | ⟨moves, moves', goes, goes', alike⟩
            · rw [stops, stops']
              exact Or.inl ⟨rfl, rfl⟩
            · rw [goes, goes']
              exact Or.inr ⟨_, _, rfl, rfl, .cons ⟨isPhi.dest, isPhi.ty, rfl⟩ alike⟩
  unfold edgeMoves
  rw [isBlock, inVariant]
  simp only [phis]
  rw [List.mapM_append]
  rcases moves with ⟨stops, stops'⟩ | ⟨moves, moves', goes, goes', alike⟩
  · refine Or.inl ⟨stops, ?_⟩
    rw [stops']
    rfl
  · refine Or.inr ⟨moves, moves', goes, ?_, alike⟩
    rw [goes', merges]
    rfl

theorem Resumption.settled_edgeMoves {source target : IrBlockId}
    (inside : source ∈ blocksReachableFrom function result.header)
    (edge : BlockEdge function source target) :
    settled (edgeMoves function source target) = settled (edgeMoves variant source target) := by
  rcases resumption.edgeMoves_variant inside edge with ⟨stops, stops'⟩ | ⟨_, _, goes, goes', -⟩
  · rw [stops, stops']
  · rw [goes, goes']
    rfl

theorem Resumption.phis_distinct {id : IrBlockId} {block' : IrBasicBlock}
    (inside : id ∈ blocksReachableFrom function result.header)
    (found : variant.getBlock id = some block') : (block'.phiNodes.map (·.dest)).Nodup := by
  obtain ⟨block, isBlock⟩ := exists_block inside
  obtain ⟨other, inVariant, region⟩ := resumption.getBlock_region inside isBlock
  cases found.symm.trans inVariant
  obtain ⟨own, phis, related⟩ := region.phis
  have sameDests : own.map (·.dest) = block.phiNodes.map (·.dest) := by
    have alike := related.imp fun _ _ isPhi => isPhi.dest.symm
    rw [← List.forall₂_eq_eq_eq, List.forall₂_map_left_iff, List.forall₂_map_right_iff]
    exact alike.flip.imp fun _ _ same => same.symm
  rw [phis, List.map_append, sameDests, List.nodup_append]
  refine ⟨resumption.ssa.phisDistinct isBlock, ?_, ?_⟩
  · unfold Carrier.mergePhis
    split_ifs
    · rw [List.map_map]
      exact redefined_phis_distinct function result
    · exact List.nodup_nil
  · rintro reg isOwn other isMerge rfl
    unfold Carrier.mergePhis at isMerge
    split_ifs at isMerge
    · rw [List.map_map] at isMerge
      obtain ⟨value, inAll, same⟩ := List.mem_map.mp isMerge
      obtain ⟨phi, inBlock, rfl⟩ := List.mem_map.mp isOwn
      exact phi_ne_own inAll (resumption.numbered.registers isBlock _ (mentioned_of_phi inBlock))
        same
    · cases isMerge

end Edges

end Rayzor.Osr
