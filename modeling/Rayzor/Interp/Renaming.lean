import Rayzor.Interp.Locality
import Rayzor.Interp.Stepping

/-!
Contract: renaming against operands and results.
-/

namespace Rayzor.Ir.IrInstruction

open Library

def renameOperands (replace : IrId → IrId) : IrInstruction → IrInstruction
  | ssaBarrier dest src ty => ssaBarrier dest (replace src) ty
  | markMoved src => markMoved (replace src)
  | checkLive src line => checkLive (replace src) line
  | borrowImmutable dest src => borrowImmutable dest (replace src)
  | borrowMutable dest src => borrowMutable dest (replace src)
  | endBorrow borrow => endBorrow (replace borrow)
  | createUnion dest discriminant value => createUnion dest discriminant (replace value)
  | extractDiscriminant dest unionVal => extractDiscriminant dest (replace unionVal)
  | extractUnionValue dest unionVal valueTy => extractUnionValue dest (replace unionVal) valueTy
  | createStruct dest ty fields => createStruct dest ty (fields.map replace)
  | other => other.renameUses replace

/-- An instruction without its operands: its kind, types, result register and targets. -/
def withoutOperands (inst : IrInstruction) : IrInstruction := inst.renameOperands fun _ => 0

/-- The register that the operations assign which an instruction is decoded to. A phi among the
instructions is decoded to nothing. -/
def assigned : IrInstruction → Option IrId
  | const dest _ => some dest
  | copy dest _ | move dest _ | ssaBarrier dest _ _ => some dest
  | borrowImmutable dest _ | borrowMutable dest _ | closureFunc dest _ => some dest
  | clone dest _ => some dest
  | endBorrow _ | debugLoc | phi _ _ => none
  | jump _ | branch _ _ _ | switch _ _ _ | returnValue _ => none
  | markMoved _ | checkLive _ _ => none
  | binOp dest _ _ _ | unOp dest _ _ | cmp dest _ _ _ | load dest _ _ => some dest
  | store _ _ _ | free _ => none
  | alloc dest _ _ | getElementPtr dest _ _ _ | ptrAdd dest _ _ _ => some dest
  | arrayHeader dest _ _ _ => some dest
  | memCopy _ _ _ | memSet _ _ _ => none
  | callDirect dest _ _ _ | callIndirect dest _ _ _ => dest
  | cast dest _ _ _ | bitCast dest _ _ | createStruct dest _ _ | createUnion dest _ _ => some dest
  | extractDiscriminant dest _ | extractUnionValue dest _ _ | extractValue dest _ _ => some dest
  | select dest _ _ _ | functionRef dest _ | makeClosure dest _ _ | closureEnv dest _ => some dest
  | undef dest _ | loadGlobal dest _ _ => some dest
  | storeGlobal _ _ => none
  | atomicLoad dest _ _ | atomicRmw dest _ _ _ _ | atomicCas dest _ _ _ => some dest
  | atomicStore _ _ => none
  | vectorLoad dest _ | vectorBinOp dest _ _ | vectorSplat dest _ | vectorInsert dest _ _ =>
      some dest
  | vectorUnaryOp dest _ | vectorMinMax dest _ _ | vectorDot dest _ _ _ => some dest
  | vectorShuffle dest _ _ | vectorConvert dest _ | vectorNarrow dest _ _ => some dest
  | vectorExtract dest _ | vectorReduce dest _ => some dest
  | vectorStore _ _ | panic _ => none
  | insertValue dest _ _ _ | landingPad dest => some dest
  | throw _ | resume _ => none
  | inlineAsm dest _ => dest

def isPhi : IrInstruction → Bool
  | phi _ _ => true
  | _ => false

theorem renameOperands_of_renamed (replace : IrId → IrId) {inst : IrInstruction}
    (renamed : inst.operandsKept = false) :
    inst.renameOperands replace = inst.renameUses replace := by
  cases inst <;> first | rfl | cases renamed

theorem withoutOperands_renameUses (replace : IrId → IrId) (inst : IrInstruction) :
    (inst.renameUses replace).withoutOperands = inst.withoutOperands := by
  by_cases kept : inst.operandsKept = true
  · rw [uses_renameUses_of_kept replace inst kept]
  · have renamed : inst.operandsKept = false := Bool.eq_false_iff.mpr kept
    have renamed' := (operandsKept_renameUses replace inst).trans renamed
    rw [withoutOperands, withoutOperands, renameOperands_of_renamed _ renamed,
      renameOperands_of_renamed _ renamed', renameUses_comp]
    rfl

theorem assigned_renameUses (replace : IrId → IrId) (inst : IrInstruction) :
    (inst.renameUses replace).assigned = inst.assigned := by
  cases inst <;> rfl

theorem assigned_eq_writes (inst : IrInstruction) : inst.assigned = inst.writes := by
  cases inst <;> rfl

theorem dest_eq_assigned {inst : IrInstruction} (ordinary : inst.destIsOperand = false)
    (notPhi : inst.isPhi = false) : inst.dest = inst.assigned := by
  cases inst with
  | memCopy dest src size => cases ordinary
  | memSet dest value size => cases ordinary
  | phi dest incoming => cases notPhi
  | _ => rfl

def replacement (replacements : OrdMap IrId IrId) (reg : IrId) : IrId :=
  (replacements.get? reg).getD reg

structure Renames (replacements : OrdMap IrId IrId) (inst : IrInstruction) : Prop where
  uses : (inst.replaceUses replacements).uses = inst.uses.map (replacement replacements)
  rest : (inst.replaceUses replacements).withoutOperands = inst.withoutOperands
  defined : (inst.replaceUses replacements).assigned = inst.assigned
  dest : ∀ reg, inst.dest = some reg ↔ inst.assigned = some reg

/-- The kinds for which renaming covers the operands, and a destination is a result. -/
structure Covered (replacements : OrdMap IrId IrId) (inst : IrInstruction) : Prop where
  ordinary : inst.destIsOperand = false
  notPhi : inst.isPhi = false
  kept : inst.operandsKept = true → ∀ reg ∈ inst.uses, replacement replacements reg = reg

end Rayzor.Ir.IrInstruction

namespace Rayzor.Interp

open Ir

variable {E : Type} {module : IrModule} {host : Host E} {function : IrFunction}

/-- A run of an instruction assigns its register, if it has one, and no other. -/
theorem execute_assigned {inst : IrInstruction} {frame next : Frame} {world world' : World E}
    (ran : execute module host function inst frame world = .ok (next, world')) :
    (∀ dest, inst.assigned = some dest → ∃ word, next.regs = frame.regs.set dest word) ∧
      (inst.assigned = none → next.regs = frame.regs) := by
  obtain ⟨result, evaluated, rfl⟩ := execute_eq_ok.mp ran
  rw [inst.assigned_eq_writes]
  constructor
  · intro dest writes
    obtain ⟨word, isWord⟩ := Option.isSome_iff_exists.mp (eval_assigns evaluated writes)
    rw [show result = some word from isWord]
    exact ⟨word, regs_after_some frame word writes⟩
  · intro writes
    simp [Frame.after, writes]

end Rayzor.Interp
