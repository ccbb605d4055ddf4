import Rayzor.Passes.CopyPropagation
import Rayzor.Passes.ValueNumbering
import Rayzor.Ssa.Trimmed

/-!
Contract: whole runs before and after the passes that only rename operands.

Owns: that a call behaves as it did after copy propagation, common subexpression
elimination and global value numbering.

Does not own: which registers these passes take for equal, or passes that drop
instructions.
-/

namespace Rayzor.Passes

open Ir Interp Library Ssa ValueNumbering

variable {E : Type} {module : IrModule} {host : Host E} {function function' : IrFunction}
  {name : IrBasicBlock → IrId → IrId} {phiName : IrId → IrId}

/-- Renaming operands leaves the types that instructions and returned structs
are read at. -/
def typesKept (function function' : IrFunction) (name : IrBasicBlock → IrId → IrId) : Bool :=
  function.cfg.blocks.values.all fun block =>
    block.instructions.all (fun inst =>
      let renamed := declOf function' (inst.renameUses (name block))
      renamed.ty = (declOf function inst).ty ∧ renamed.destTy = (declOf function inst).destTy) &&
    block.terminator.reads.all fun value =>
      !function.signature.usesSret ||
        (regType function' (name block value) <|> localType function' (name block value)) =
          (regType function value <|> localType function value)

/-- Nothing is dropped. -/
def renamed (name : IrBasicBlock → IrId → IrId) (phiName : IrId → IrId) : Trimming where
  keep := fun _ => true
  keepPhi := fun _ => true
  name := name
  phiName := phiName

theorem trimmed_of_rewritten (rewritten : Rewritten function function' phiName name) :
    Trimmed function function' (renamed name phiName) where
  signature := rewritten.signature
  entry := rewritten.entry
  blocks := by
    intro id
    rw [rewritten.blocks]
    refine congrArg (Option.map · _) (funext fun block => ?_)
    simp only [Trimming.block, renamed, List.filter_true]
    rfl

/-- Operands may go by the name of a register that holds the same word wherever
they are available. -/
theorem preserves_of_rewritten (rewritten : Rewritten function function' phiName name)
    (ordered : DefinedBeforeUse function) (types : typesKept function function' name = true)
    (phiNamed : ∀ {frame world} {state : State E}, Runs module host function frame world state →
      ∀ reg, Available function reg (pointOf state) →
        state.frame.regs (phiName reg) = state.frame.regs reg)
    (named : ∀ {frame world block} {state : State E},
      Runs module host function frame world state →
      function.getBlock state.block = some block →
      ∀ reg, Available function reg (pointOf state) →
        state.frame.regs (name block reg) = state.frame.regs reg) :
    Preserves module host function function' := by
  refine .of_harmless (fun _ => False) (trimmed_of_rewritten rewritten) fun frame world => ?_
  have ofBlock : ∀ {id block}, function.getBlock id = some block → _ := fun found =>
    List.all_eq_true.mp types _ ((OrdMap.mem_values_iff _ _).mpr ⟨_, found⟩)
  have atEnd : ∀ {block} {state : State E}, Runs module host function frame world state →
      function.getBlock state.block = some block → block.instructions.length ≤ state.pc →
      pointOf state = (state.block, block.instructions.length) := fun runs found done =>
    Prod.ext rfl (Nat.le_antisymm (pc_le_length runs found) done)
  constructor
  · intro state block inst _ _ _ drops
    exact Bool.noConfusion drops
  · intro state block inst runs found here _ reg used
    refine ⟨not_false, ?_⟩
    unfold Trimming.operand
    split_ifs
    · rfl
    · exact named runs found reg (ordered.operands found here reg used)
  · intro state block runs found done reg read
    refine ⟨not_false, named runs found reg ?_⟩
    rw [atEnd runs found done]
    exact ordered.terminator found reg read
  · intro state block target targetBlock phi value runs found done _ foundTarget member _ taken
    refine ⟨not_false, phiNamed runs value ?_⟩
    rw [atEnd runs found done]
    exact ordered.phis foundTarget member (mem_incoming_of_valueFrom taken) found
  · intro state block target targetBlock phi _ _ _ _ _ _ drops
    exact Bool.noConfusion drops
  · intro id block inst found member _
    have both := ofBlock found
    simp only [Bool.and_eq_true, List.all_eq_true, decide_eq_true_eq] at both
    obtain ⟨sameTy, sameDest⟩ := both.1 inst member
    have ext : ∀ {left right : Decl}, left.ty = right.ty → left.destTy = right.destTy →
        left = right := by
      rintro ⟨_, _⟩ ⟨_, _⟩ rfl rfl
      rfl
    exact ext sameTy sameDest
  · intro id block value found returns usesSret
    have both := ofBlock found
    simp only [Bool.and_eq_true, List.all_eq_true, returns, IrTerminator.reads,
      Option.toList_some, List.mem_singleton, forall_eq, usesSret, Bool.not_true, Bool.false_or,
      decide_eq_true_eq] at both
    exact both.2

/-! ### The passes -/

/-- The registers of a log stand for each other wherever the later is available. -/
theorem resolve_word {log : List (IrId × IrId)} (ssa : SsaForm function)
    (justified : Justified function log) {replacements : OrdMap IrId IrId}
    (replaced : ∀ later earlier, replacements.get? later = some earlier ↔ (later, earlier) ∈ log)
    (alike : ∀ later earlier, replacements.get? later = some earlier →
      ReadsAlike module host function later earlier) {frame : Frame} {world : World E}
    {state : State E} (runs : Runs module host function frame world state) {reg : IrId}
    (available : Available function reg (pointOf state)) :
    state.frame.regs (resolve replacements reg) = state.frame.regs reg := by
  rcases namedBy_resolve replaced reg with same | member
  · rw [same]
  · have equal := (holdEqual_iff module host ssa justified).mpr fun pair inLog =>
      alike pair.1 pair.2 ((replaced _ _).mpr inLog)
    exact (equal _ member runs available).symm

theorem widenedTwice_alike (later earlier : IrId) :
    ReadsAlike ⟨.empty, .empty⟩ (Host.idle) (widenedTwice .i32) later earlier := by
  refine readsAlike_of_sameTypes fun found here _ found' here' _ => ?_
  have first := widenedTwice_instruction found here
  have second := widenedTwice_instruction found' here'
  simp only [List.mem_cons, List.not_mem_nil, or_false] at first second
  rcases first with rfl | rfl | rfl <;> rcases second with rfl | rfl | rfl <;> exact ⟨rfl, rfl⟩

theorem propagate_rewritten : Rewritten function (CopyPropagation.propagate function)
    (fun reg => reg) (fun _ => resolve (CopyPropagation.rootsOf function)) where
  signature := by
    simp only [CopyPropagation.propagate]
    split_ifs <;> rfl
  entry := by
    simp only [CopyPropagation.propagate]
    split_ifs <;> rfl
  blocks := by
    intro id
    rw [CopyPropagation.getBlock_propagate]
    refine congrArg (Option.map · _) (funext fun block => ?_)
    have phis : (block.phiNodes.map fun phi =>
        { phi with incoming := phi.incoming.map fun entry => (entry.1, entry.2) }) =
        block.phiNodes := by simp
    rw [phis]
    rfl

end Rayzor.Passes
