import Rayzor.Ssa.Equations

/-!
Contract: which registers a function reads and assigns at a point.
-/

namespace Rayzor.Ssa

open Ir Interp

variable {E : Type} {module : IrModule} {host : Host E} {function : IrFunction}

def readsAt (function : IrFunction) (point : Point) : List IrId :=
  match function.getBlock point.1 with
  | none => []
  | some block =>
      match block.instructions[point.2]? with
      | some inst => inst.uses
      | none => block.terminator.reads

/-- Getting to the point assigns the register: phis on the way into their block, a result once its
instruction is done. -/
inductive AssignedAt (function : IrFunction) (reg : IrId) : Point → Prop where
  | phi {id : IrBlockId} {block : IrBasicBlock} (found : function.getBlock id = some block)
      (member : reg ∈ block.phiNodes.map (·.dest)) : AssignedAt function reg (id, 0)
  | instruction {id : IrBlockId} {block : IrBasicBlock} {pc : Nat} {inst : IrInstruction}
      (found : function.getBlock id = some block) (here : block.instructions[pc]? = some inst)
      (writes : inst.writes = some reg) : AssignedAt function reg (id, pc + 1)

theorem AssignedAt.defines {reg : IrId} {point : Point} (assigned : AssignedAt function reg point) :
    DefinesAt function reg point := by
  cases assigned with
  | phi found member => exact .phi found member
  | instruction found here writes => exact .instruction found here writes

/-- The register may be read, on some path from the point, with the word it has there. -/
inductive LiveAt (function : IrFunction) (reg : IrId) : Point → Prop where
  | read {point : Point} (member : reg ∈ readsAt function point) : LiveAt function reg point
  | phi {id target : IrBlockId} {pc : Nat} {block : IrBasicBlock} {phi : IrPhiNode}
      (along : Edge function (id, pc) (target, 0)) (found : function.getBlock target = some block)
      (member : phi ∈ block.phiNodes) (taken : phi.valueFrom id = some reg) :
      LiveAt function reg (id, pc)
  | later {point next : Point} (along : Edge function point next)
      (kept : ¬AssignedAt function reg next) (live : LiveAt function reg next) :
      LiveAt function reg point

theorem mem_incoming_of_valueFrom {phi : IrPhiNode} {source : IrBlockId} {reg : IrId}
    (taken : phi.valueFrom source = some reg) : (source, reg) ∈ phi.incoming := by
  obtain ⟨entry, found, isValue⟩ := Option.map_eq_some_iff.mp taken
  have isSource : entry.1 = source := by simpa using List.find?_some found
  have same : entry = (source, reg) := Prod.ext isSource isValue
  exact same ▸ List.mem_of_find?_eq_some found

theorem regs_of_notAssigned {reg : IrId} {state next : State E}
    (stepped : Stepped module host function state next)
    (elsewhere : ¬AssignedAt function reg (pointOf next)) :
    next.frame.regs reg = state.frame.regs reg := by
  cases stepped with
  | executed found here ran =>
      obtain ⟨result, -, rfl⟩ := execute_eq_ok.mp ran
      exact regs_after_of_ne fun writes => elsewhere (.instruction found here writes)
  | moved found done chosen transferred =>
      obtain ⟨block, foundTarget, moved⟩ := moved_of_transfer transferred
      exact moved.others _ fun member => elsewhere (.phi foundTarget member)

theorem pc_le_length {frame : Frame} {world : World E} {state : State E}
    (runs : Runs module host function frame world state) {block : IrBasicBlock}
    (found : function.getBlock state.block = some block) : state.pc ≤ block.instructions.length := by
  refine Runs.induction (fun state => ∀ block, function.getBlock state.block = some block →
    state.pc ≤ block.instructions.length) runs ?_ ?_ block found
  · intro block _
    exact Nat.zero_le _
  · intro state next _ _ stepped block found
    cases stepped with
    | executed found' here ran =>
        cases found.symm.trans found'
        exact (List.getElem?_eq_some_iff.mp here).1
    | moved => exact Nat.zero_le _

end Rayzor.Ssa
