import Rayzor.Passes.CopyPropagation
import Rayzor.Ssa.Trimmed

/-!
Contract: dead code elimination against whole runs.

Owns: the registers that `DeadCodeEliminationPass` finds used, what it drops, and
that calls behave as they did wherever what is dropped would only have assigned
its own register.

Does not own: the other registers that removing an instruction makes dead. The
pass looks for used registers once.
-/

namespace Rayzor.Passes.DeadCode

open Ir Interp Library Ssa

/-! ### `DeadCodeEliminationPass` -/

def terminatorUses : IrTerminator → List IrId
  | .noReturn call => [call]
  | term => term.reads

def blockUses (block : IrBasicBlock) : List IrId :=
  block.phiNodes.flatMap (fun phi => phi.incoming.map Prod.snd) ++
    block.instructions.flatMap (·.uses) ++ terminatorUses block.terminator

def findUsedRegisters (function : IrFunction) : List IrId :=
  function.cfg.blocks.values.flatMap blockUses

def isNeeded (used : List IrId) (inst : IrInstruction) : Bool :=
  match inst.dest with
  | some dest => used.contains dest || inst.hasSideEffects
  | none => true

/-- Dead phis go first, then dead instructions. -/
def dropDead (used : List IrId) (block : IrBasicBlock) : IrBasicBlock :=
  { block with
    phiNodes := block.phiNodes.filter fun phi => used.contains phi.dest
    instructions := block.instructions.filter (isNeeded used) }

def eliminateDeadInstructions (function : IrFunction) : IrFunction :=
  { function with
    cfg := { function.cfg with
      blocks := function.cfg.blocks.mapValues fun _ => dropDead (findUsedRegisters function) } }

/-! ### What is dropped -/

section Dropped

variable {E : Type} {module : IrModule} {host : Host E} {function : IrFunction}

def dropping (function : IrFunction) : Trimming where
  keep := isNeeded (findUsedRegisters function)
  keepPhi := fun phi => (findUsedRegisters function).contains phi.dest
  name := fun _ reg => reg
  phiName := fun reg => reg

/-- In the runs of the function a dropped instruction computes a word and leaves
the world alone, and a dropped phi gets one. -/
structure OnlyAssigns (module : IrModule) (host : Host E) (function : IrFunction) : Prop where
  instructions : ∀ {frame world state block inst}, Runs module host function frame world state →
    function.getBlock state.block = some block → block.instructions[state.pc]? = some inst →
    isNeeded (findUsedRegisters function) inst = false →
    ∃ word, eval module host (declOf function inst) (state.frame.site inst) state.frame.regs inst
      state.world = .ok (some word, state.world)
  phis : ∀ {frame world state block target targetBlock phi},
    Runs module host function frame world state → function.getBlock state.block = some block →
    block.instructions.length ≤ state.pc → target ∈ block.successors →
    function.getBlock target = some targetBlock → phi ∈ targetBlock.phiNodes →
    phi.dest ∉ findUsedRegisters function → ∃ value, phi.valueFrom state.block = some value ∧
      ∃ word, phiWord phi.ty (state.frame.regs value) = .ok word

theorem mem_used {id : IrBlockId} {block : IrBasicBlock} {reg : IrId}
    (found : function.getBlock id = some block) (used : reg ∈ blockUses block) :
    reg ∈ findUsedRegisters function :=
  List.mem_flatMap.mpr ⟨block, (OrdMap.mem_values_iff _ _).mpr ⟨id, found⟩, used⟩

theorem getBlock_eliminated (id : IrBlockId) :
    (eliminateDeadInstructions function).getBlock id =
      (function.getBlock id).map (dropDead (findUsedRegisters function)) :=
  OrdMap.get?_mapValues _ _ id

theorem eliminate_trimmed :
    Trimmed function (eliminateDeadInstructions function) (dropping function) where
  signature := rfl
  entry := rfl
  blocks := by
    intro id
    rw [getBlock_eliminated]
    refine congrArg (Option.map · _) (funext fun block => ?_)
    have phis : ∀ phis : List IrPhiNode, phis.map (dropping function).phi = phis := fun phis =>
      List.map_id'' (fun phi => by simp [Trimming.phi, dropping]) phis
    simp only [Trimming.block, phis]
    simp [dropDead, dropping]

theorem after_dropped {used : List IrId} {inst : IrInstruction} (drops : isNeeded used inst = false)
    {decl : Decl} {site : Site} {get : IrId → Word} {world next : World E} {word : Word}
    (evaluated : eval module host decl site get inst world = .ok (some word, next))
    (frame : Frame) : ∃ dest, dest ∉ used ∧
      frame.after inst (some word) = { frame with regs := frame.regs.set dest word } := by
  have unused : ∀ dest, inst.dest = some dest → dest ∉ used ∧ inst.hasSideEffects = false := by
    intro dest isDest
    simpa [isNeeded, isDest] using drops
  cases inst
  case phi => cases evaluated
  case callDirect dest _ _ _ | callIndirect dest _ _ _ | inlineAsm dest _ =>
    cases dest with
    | none => cases drops
    | some dest => exact nomatch (unused dest rfl).2
  case memCopy | memSet => exact nomatch (unused _ rfl).2
  all_goals first
    | exact ⟨_, (unused _ rfl).1, rfl⟩
    | cases drops

/-! ### The types operands are read at -/

theorem find?_phis {used regs : List IrId} (operands : ∀ reg ∈ regs, reg ∈ used)
    (phis : List IrPhiNode) :
    (phis.filter fun phi => used.contains phi.dest).find? (fun phi => regs.contains phi.dest) =
      phis.find? fun phi => regs.contains phi.dest := by
  rw [List.find?_filter]
  refine congrArg (List.find? · phis) (funext fun phi => ?_)
  cases member : regs.contains phi.dest with
  | false => simp
  | true => simp [operands phi.dest (by simpa using member)]

theorem findSome?_loads {used : List IrId} {aggregate : IrId} (operand : aggregate ∈ used)
    (instructions : List IrInstruction) :
    (instructions.filter (isNeeded used)).findSome? (loadOf aggregate) =
      instructions.findSome? (loadOf aggregate) := by
  induction instructions with
  | nil => rfl
  | cons inst rest ih =>
      cases keeps : isNeeded used inst with
      | true => rw [List.filter_cons_of_pos keeps, List.findSome?_cons, List.findSome?_cons, ih]
      | false =>
          have notLoad : loadOf aggregate inst = none := by
            by_contra loads
            obtain ⟨ty, isLoad⟩ := Option.ne_none_iff_exists'.mp loads
            obtain ⟨ptr, rfl⟩ := loadOf_eq_some.mp isLoad
            simp [isNeeded, IrInstruction.dest, operand] at keeps
          rw [List.filter_cons_of_neg (by simp [keeps]), List.findSome?_cons, notLoad, ih]

theorem declOf_eliminated {inst : IrInstruction}
    (used : ∀ reg ∈ inst.uses, reg ∈ findUsedRegisters function) :
    declOf (eliminateDeadInstructions function) inst = declOf function inst := by
  refine declOf_congr rfl rfl rfl (fun id regs operands => ?_) fun id aggregate operand => ?_
  · rw [getBlock_eliminated, Option.bind_map]
    refine congrArg (Option.bind _) (funext fun block => ?_)
    exact congrArg (Option.map _) (find?_phis (fun reg member => used reg (operands reg member)) _)
  · rw [getBlock_eliminated, Option.bind_map]
    exact congrArg (Option.bind _) (funext fun block => findSome?_loads (used _ operand) _)

/-! ### Whole runs -/

end Dropped

end Rayzor.Passes.DeadCode
