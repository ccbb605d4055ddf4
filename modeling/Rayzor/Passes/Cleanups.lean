import Rayzor.Passes.ControlFlow
import Rayzor.Passes.Folded

/-!
Contract: whole runs before and after the passes that clean up control flow.

Owns: that a call behaves as it did after unreachable blocks are dropped, and
after branches on constants are decided.
-/

namespace Rayzor.Passes.ControlFlow

open Ir Interp Library Ssa

variable {E : Type} {module : IrModule} {host : Host E} {function : IrFunction}

/-! ### `UnreachableBlockEliminationPass` -/

section Unreachable

theorem mem_findReachable_next {id target : IrBlockId} {block : IrBasicBlock}
    (live : id ∈ findReachable function) (found : function.getBlock id = some block)
    (successor : target ∈ block.successors) : target ∈ findReachable function := by
  rw [mem_findReachable_iff] at live ⊢
  refine live.tail ?_
  change target ∈ successorsOf function id
  rwa [successorsOf, found]

theorem mem_findReachable_of_reachable {point : Point} (reachable : Reachable function point) :
    point.1 ∈ findReachable function := by
  obtain ⟨path, walk⟩ := reachable
  induction walk with
  | start => exact mem_findReachable_iff.mpr .refl
  | step _ along ih =>
      cases along with
      | within => exact ih
      | across found _ successor => exact mem_findReachable_next ih found successor

def cleanedPhi (function : IrFunction) (phi : IrPhiNode) : IrPhiNode :=
  let reachable := findReachable function
  if (function.cfg.blocks.filter fun id _ => id ∈ reachable).entries.length <
      function.cfg.blocks.entries.length then
    { phi with incoming := phi.incoming.filter fun entry => entry.1 ∈ reachable }
  else phi

theorem block_cleaned (block : IrBasicBlock) :
    (cleaned function block).instructions = block.instructions ∧
      (cleaned function block).phiNodes = block.phiNodes.map (cleanedPhi function) := by
  have each : cleanedPhi function = fun phi => cleanedPhi function phi := rfl
  rw [each]
  simp only [cleaned, cleanedPhi]
  split_ifs
  · exact ⟨rfl, rfl⟩
  · exact ⟨rfl, (List.map_id' _).symm⟩

theorem cleanedPhi_spec (phi : IrPhiNode) : (cleanedPhi function phi).dest = phi.dest ∧
    (cleanedPhi function phi).ty = phi.ty ∧ ∀ source ∈ findReachable function,
      (cleanedPhi function phi).valueFrom source = phi.valueFrom source := by
  simp only [cleanedPhi]
  split_ifs
  · refine ⟨rfl, rfl, fun source live => ?_⟩
    simp only [IrPhiNode.valueFrom, List.find?_filter]
    refine congrArg (Option.map _) (congrArg (List.find? · _) (funext fun entry => ?_))
    cases isSource : entry.1 == source with
    | false => simp
    | true =>
        rw [beq_iff_eq.mp isSource]
        simp [live]
  · exact ⟨rfl, rfl, fun _ _ => rfl⟩

theorem edgeMoves_eliminated {source target : IrBlockId} (live : source ∈ findReachable function)
    (liveTarget : target ∈ findReachable function) :
    edgeMoves (eliminateUnreachable function) source target =
      (edgeMoves function source target).map fun moves =>
        moves.map fun move => (cleanedPhi function move.1, move.2) := by
  unfold edgeMoves
  rw [getBlock_eliminated, if_pos liveTarget]
  cases function.getBlock target with
  | none => rfl
  | some block =>
      simp only [Option.map_some, block_cleaned, List.mapM_map]
      refine mapM_map_outputs fun phi _ => ?_
      simp only [Function.comp_apply, phiMove, (cleanedPhi_spec phi).2.2 source live]
      cases phi.valueFrom source <;> rfl

theorem transfer_eliminated {source target : IrBlockId} {block : IrBasicBlock} {regs : Regs}
    (live : source ∈ findReachable function) (found : function.getBlock source = some block)
    (successor : target ∈ block.successors) :
    transfer (eliminateUnreachable function) source block.terminator target regs =
      transfer function source block.terminator target regs := by
  have moves : ∀ other ∈ block.successors, _ := fun other isSuccessor =>
    edgeMoves_eliminated live (mem_findReachable_next live found isSuccessor)
  have words : ∀ moves : List (IrPhiNode × IrId),
      takeMoves regs (moves.map fun move => (cleanedPhi function move.1, move.2)) =
        takeMoves regs moves := by
    intro moves
    simp only [takeMoves, List.mapM_map, List.map_map, Function.comp_def, cleanedPhi_spec]
  unfold transfer
  rw [show block.terminator.successors = block.successors from rfl, mapM_map_outputs moves,
    moves target successor]
  cases block.successors.mapM (edgeMoves function source) with
  | error _ => rfl
  | ok _ =>
      cases edgeMoves function source target with
      | error _ => rfl
      | ok _ => exact words _

/-- Under single assignment a block that is dropped says nothing about an operand. -/
theorem live_of_defines (ssa : SsaForm function) {reg : IrId} {definition place : Point}
    (defines : DefinesAt function reg definition) (available : Available function reg place)
    (reachable : Reachable function place) : definition.1 ∈ findReachable function := by
  obtain ⟨path, walk⟩ := reachable
  exact mem_findReachable_of_reachable (walk.mem_reachable (ssa.dominates defines available path walk))

theorem declOf_kept (ssa : SsaForm function) {id : IrBlockId} {block : IrBasicBlock} {pc : Nat}
    {inst : IrInstruction} (found : function.getBlock id = some block)
    (here : block.instructions[pc]? = some inst) (reachable : Reachable function (id, pc)) :
    declOf (eliminateUnreachable function) inst = declOf function inst := by
  have kept : ∀ {β : Type} (find : IrBasicBlock → Option β) (other : IrBlockId),
      (∀ block, find (cleaned function block) = find block) →
      (∀ block, function.getBlock other = some block → (find block).isSome →
        other ∈ findReachable function) →
      ((eliminateUnreachable function).getBlock other).bind find =
        (function.getBlock other).bind find := by
    intro β find other same live
    rw [getBlock_eliminated]
    split_ifs with isLive
    · rw [Option.bind_map]
      exact congrArg (Option.bind _) (funext same)
    · cases foundOther : function.getBlock other with
      | none => rfl
      | some block =>
          exact (Option.not_isSome_iff_eq_none.mp (isLive ∘ live block foundOther)).symm
  refine declOf_congr rfl rfl rfl (fun other regs operands => ?_) fun other aggregate operand => ?_
  · refine kept (phiIn regs) other (fun block => ?_) fun block foundOther isFound => ?_
    · simp only [phiIn, block_cleaned, List.find?_map, Option.map_map, Function.comp_def,
        cleanedPhi_spec]
    · obtain ⟨phi, isPhi⟩ := Option.isSome_iff_exists.mp (Option.isSome_map.symm.trans isFound)
      have member := operands phi.dest (by simpa using List.find?_some isPhi)
      exact live_of_defines ssa (.phi foundOther (List.mem_map_of_mem (List.mem_of_find?_eq_some isPhi)))
        (ssa.operands found here _ member) reachable
  · refine kept (loadedIn aggregate) other (fun block => ?_) fun block foundOther isFound => ?_
    · simp only [loadedIn, block_cleaned]
    · obtain ⟨ty, isLoaded⟩ := Option.isSome_iff_exists.mp isFound
      obtain ⟨ptr, inBlock⟩ := loadedIn_eq_some isLoaded
      obtain ⟨place, hereOther⟩ := List.mem_iff_getElem?.mp inBlock
      exact live_of_defines ssa (.instruction foundOther hereOther rfl)
        (ssa.operands found here _ operand) reachable

end Unreachable

/-! ### `ControlFlowSimplificationPass` -/

section Decided

/-- Where a branch is decided, its condition holds the constant. -/
theorem chosen_decided (ssa : SsaForm function) {frame : Frame} {world : World E} {state : State E}
    (runs : Runs module host function frame world state) {block : IrBasicBlock}
    (found : function.getBlock state.block = some block)
    (done : block.instructions.length ≤ state.pc) :
    chosenTarget state.frame.regs
        (decideBranch (ConstantFolding.collectConstants function) block.terminator) =
      chosenTarget state.frame.regs block.terminator := by
  cases isTerm : block.terminator with
  | condBranch condition trueTarget falseTarget =>
      simp only [decideBranch]
      split
      · rename_i value collected
        have available := ssa.terminator found condition (by rw [isTerm]; exact List.mem_singleton_self _)
        rw [← Nat.le_antisymm (pc_le_length runs found) done] at available
        have known : ConstantFolding.Known module host function _ :=
          ConstantFolding.known_collected ssa
        have holds := known condition (.bool value) _ collected rfl runs available
        simp only [chosenTarget, holds]
        cases value <;> rfl
      · rfl
  | _ => rfl

theorem exists_mapM_edgeMoves {source : IrBlockId} {targets : List IrBlockId}
    (decodes : ∀ target ∈ targets, ∃ moves, edgeMoves function source target = .ok moves) :
    ∃ all, targets.mapM (edgeMoves function source) = .ok all := by
  induction targets with
  | nil => exact ⟨[], rfl⟩
  | cons target rest ih =>
      obtain ⟨first, isFirst⟩ := decodes target List.mem_cons_self
      obtain ⟨later, isLater⟩ := ih fun other member => decodes other (List.mem_cons_of_mem _ member)
      exact ⟨first :: later, by rw [List.mapM_cons, isFirst, isLater]; rfl⟩

end Decided

end Rayzor.Passes.ControlFlow
