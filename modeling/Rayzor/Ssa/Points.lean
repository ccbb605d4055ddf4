import Rayzor.Library.Graph
import Rayzor.Interp.Stepping

/-!
Contract: where control can be in a function, which registers have been given a
value by then, and what one step of the machine does to a point and to the
registers.

Owns: program points and their edges, the points that define a register,
availability on every path, the SSA form passes are promised, and the
inversion lemma of `step`.
-/

namespace Rayzor.Ssa

open Ir Interp Library Library.Graph

/-- A block, and how many of its instructions are done. -/
abbrev Point := IrBlockId × Nat

/-- Control can go from one point to the other. -/
inductive Edge (function : IrFunction) : Point → Point → Prop where
  | within {id : IrBlockId} {block : IrBasicBlock} {pc : Nat}
      (found : function.getBlock id = some block) (inside : pc < block.instructions.length) :
      Edge function (id, pc) (id, pc + 1)
  | across {id target : IrBlockId} {block : IrBasicBlock} {pc : Nat}
      (found : function.getBlock id = some block) (done : block.instructions.length ≤ pc)
      (successor : target ∈ block.successors) : Edge function (id, pc) (target, 0)

def entryPoint (function : IrFunction) : Point := (function.cfg.entryBlock, 0)

/-- Getting to the point gives the register a value: parameters on entry, phis
on the way into their block, a result once its instruction is done. -/
inductive DefinesAt (function : IrFunction) (reg : IrId) : Point → Prop where
  | parameter (member : reg ∈ function.signature.parameters.map (·.reg)) :
      DefinesAt function reg (entryPoint function)
  | phi {id : IrBlockId} {block : IrBasicBlock} (found : function.getBlock id = some block)
      (member : reg ∈ block.phiNodes.map (·.dest)) : DefinesAt function reg (id, 0)
  | instruction {id : IrBlockId} {block : IrBasicBlock} {pc : Nat} {inst : IrInstruction}
      (found : function.getBlock id = some block) (here : block.instructions[pc]? = some inst)
      (writes : inst.writes = some reg) : DefinesAt function reg (id, pc + 1)

def Reachable (function : IrFunction) (point : Point) : Prop :=
  Graph.Reachable (Edge function) (entryPoint function) point

def Dominates (function : IrFunction) (first second : Point) : Prop :=
  Graph.Dominates (Edge function) (entryPoint function) first second

/-- A definition of the register lies on every path to the point. -/
def Available (function : IrFunction) (reg : IrId) (point : Point) : Prop :=
  Met (Edge function) (entryPoint function) (DefinesAt function reg) point

structure DefinedBeforeUse (function : IrFunction) : Prop where
  operands : ∀ {id block pc inst}, function.getBlock id = some block →
    block.instructions[pc]? = some inst → ∀ reg ∈ inst.uses, Available function reg (id, pc)
  terminator : ∀ {id block}, function.getBlock id = some block →
    ∀ reg ∈ block.terminator.reads, Available function reg (id, block.instructions.length)
  phis : ∀ {id block source sourceBlock phi reg}, function.getBlock id = some block →
    phi ∈ block.phiNodes → (source, reg) ∈ phi.incoming →
    function.getBlock source = some sourceBlock →
    Available function reg (source, sourceBlock.instructions.length)

/-- One definition for each register, before every use. No phi stands in the
entry block: there is no edge it could take its first value from. -/
structure SsaForm (function : IrFunction) : Prop extends DefinedBeforeUse function where
  single : ∀ {reg first second}, DefinesAt function reg first → DefinesAt function reg second →
    first = second
  parametersDistinct : (function.signature.parameters.map (·.reg)).Nodup
  phisDistinct : ∀ {id block}, function.getBlock id = some block →
    (block.phiNodes.map (·.dest)).Nodup
  entryPhis : ∀ {block}, function.getBlock function.cfg.entryBlock = some block →
    block.phiNodes = []

def BlockEdge (function : IrFunction) (source target : IrBlockId) : Prop :=
  ∃ block, function.getBlock source = some block ∧ target ∈ block.successors

/-- Every edge is recorded in the predecessor list of its target, and nothing
else is. -/
structure PredecessorsConsistent (function : IrFunction) : Prop where
  recorded : ∀ {source target}, BlockEdge function source target →
    ∃ block, function.getBlock target = some block ∧ source ∈ block.predecessors
  actual : ∀ {source target block}, function.getBlock target = some block →
    source ∈ block.predecessors → BlockEdge function source target

/-- The blocks a phi takes values from are exactly the predecessors. -/
def PhisMatchPredecessors (function : IrFunction) : Prop :=
  ∀ {id block phi}, function.getBlock id = some block → phi ∈ block.phiNodes → ∀ source,
    source ∈ phi.incoming.map Prod.fst ↔ BlockEdge function source id

variable {function : IrFunction} {reg : IrId}

theorem Reachable.next {point next : Point} (reachable : Reachable function point)
    (along : Edge function point next) : Reachable function next :=
  Graph.Reachable.step reachable along

theorem Available.before {point next : Point} (available : Available function reg next)
    (along : Edge function point next) (elsewhere : ¬DefinesAt function reg next) :
    Available function reg point :=
  Met.of_edge available along elsewhere

theorem Available.here {point : Point} (defines : DefinesAt function reg point) :
    Available function reg point := Met.of_marked defines

theorem SsaForm.dominates (ssa : SsaForm function) {definition point : Point}
    (defines : DefinesAt function reg definition) (available : Available function reg point) :
    Dominates function definition point :=
  Met.dominates (fun _ defines' => ssa.single defines' defines) available

theorem Available.of_dominates {definition point : Point}
    (defines : DefinesAt function reg definition)
    (dominates : Dominates function definition point) : Available function reg point :=
  Met.of_dominates defines dominates

theorem dominates_next (id : IrBlockId) (pc : Nat) : Dominates function (id, pc) (id, pc + 1) := by
  refine Graph.Dominates.of_only_predecessor ?_ ?_
  · intro other along
    cases along
    rfl
  · intro same
    cases same

theorem dominates_later {id : IrBlockId} {first second : Nat} (order : first ≤ second) :
    Dominates function (id, first) (id, second) := by
  induction second with
  | zero =>
      rw [Nat.le_zero.mp order]
      exact Graph.Dominates.refl _
  | succ second ih =>
      rcases Nat.lt_or_eq_of_le order with less | same
      · exact (ih (Nat.le_of_lt_succ less)).trans (dominates_next id second)
      · rw [same]
        exact Graph.Dominates.refl _

theorem Available.of_dominated {earlier point : Point} (available : Available function reg earlier)
    (dominates : Dominates function earlier point) : Available function reg point :=
  Met.of_dominated available dominates

section Steps

variable {E : Type} {module : IrModule} {host : Host E} {state next : State E}

def pointOf (state : State E) : Point := (state.block, state.pc)

theorem edge_of_stepped (stepped : Stepped module host function state next) :
    Edge function (pointOf state) (pointOf next) := by
  cases stepped with
  | executed found here _ => exact .within found (List.getElem?_eq_some_iff.mp here).1
  | moved found done chosen _ => exact .across found done (chosenTarget_mem chosen)

theorem regs_of_stepped (stepped : Stepped module host function state next)
    (elsewhere : ¬DefinesAt function reg (pointOf next)) :
    next.frame.regs reg = state.frame.regs reg := by
  cases stepped with
  | executed found here ran =>
      obtain ⟨result, -, rfl⟩ := execute_eq_ok.mp ran
      exact regs_after_of_ne fun writes => elsewhere (.instruction found here writes)
  | moved found done chosen transferred =>
      obtain ⟨block, foundTarget, moved⟩ := moved_of_transfer transferred
      exact moved.others _ fun member => elsewhere (.phi foundTarget member)

theorem reachable_of_reaches {frame : Frame} {world : World E}
    (reaches : (machine module host function).Reaches (entryState function frame world) state) :
    Reachable function (pointOf state) := by
  have start : Reachable function (pointOf (entryState function frame world)) :=
    Graph.Reachable.start
  have preserved : ∀ {state next : State E}, Reachable function (pointOf state) →
      (machine module host function).step state = .inl next →
      Reachable function (pointOf next) :=
    fun reachable stepped => reachable.next (edge_of_stepped (step_eq_inl.mp stepped))
  exact Machine.invariant_of_reaches _ preserved start reaches

end Steps

end Rayzor.Ssa
