import Rayzor.Interp.Locality
import Rayzor.Ssa.Points

/-!
Contract: what single assignment buys. A fact about registers that holds each
time a definition is made goes on holding wherever that definition dominates.
-/

namespace Rayzor.Ssa

open Ir Interp Library Library.Graph

/-- The word of an instruction that neither reads nor changes the world. -/
def pureValue (decl : Decl) (get : IrId → Word) : IrInstruction → Option (Except Fault Word)
  | .const _ value => (constantWord value).map .ok
  | .copy _ src | .move _ src | .ssaBarrier _ src _ | .borrowImmutable _ src
  | .borrowMutable _ src | .closureFunc _ src => some (.ok (get src))
  | .binOp _ op left right => some (do binop (← resolved decl) op (get left) (get right))
  | .unOp _ op operand => some (do unop (← resolved decl) op (get operand))
  | .cmp _ op left right => some (do Interp.cmp (← resolved decl) op (get left) (get right))
  | .cast _ src fromTy toTy => some (Interp.cast fromTy toTy (get src))
  | .bitCast _ src ty => some (bitCast ty (get src))
  | .select _ condition trueVal falseVal =>
      some (.ok ⟨(get trueVal).mt,
        if (get condition).bits ≠ 0 then (get trueVal).bits else (get falseVal).bits⟩)
  | .undef _ ty => some (.ok (undefWord ty))
  | _ => none

section Pure

variable {E : Type} {module : IrModule} {host : Host E} {decl : Decl} {get get' : IrId → Word}
  {inst : IrInstruction}

theorem eval_of_pure {value : Except Fault Word} (isPure : pureValue decl get inst = some value)
    (site : Site) (world : World E) :
    eval module host decl site get inst world = computing world value := by
  cases inst
  case const dest constant =>
    obtain ⟨word, found, rfl⟩ := Option.map_eq_some_iff.mp isPure
    cases constant
    all_goals first
      | (cases found
         rfl)
      | cases found
  all_goals first
    | (cases isPure
       rfl)
    | cases isPure

theorem pureValue_congr (agree : ∀ reg ∈ inst.uses, get reg = get' reg) :
    pureValue decl get inst = pureValue decl get' inst := by
  cases inst
  all_goals simp only [IrInstruction.uses, List.mem_cons, List.not_mem_nil, or_false,
    forall_eq_or_imp, forall_eq] at agree
  all_goals simp only [pureValue, agree]

end Pure

variable {E : Type} {module : IrModule} {host : Host E} {function : IrFunction}
  {frame : Frame} {world : World E}

def Runs (module : IrModule) (host : Host E) (function : IrFunction) (frame : Frame)
    (world : World E) (state : State E) : Prop :=
  (machine module host function).Reaches (entryState function frame world) state

theorem Runs.reachable {state : State E} (runs : Runs module host function frame world state) :
    Reachable function (pointOf state) := reachable_of_reaches runs

theorem Runs.next {state next : State E} (runs : Runs module host function frame world state)
    (stepped : Stepped module host function state next) :
    Runs module host function frame world next :=
  Machine.Reaches.trans runs (Machine.Reaches.of_step (step_eq_inl.mpr stepped))

/-- Prove something of every state of a run, one step at a time. -/
theorem Runs.induction (Holds : State E → Prop) {state : State E}
    (runs : Runs module host function frame world state)
    (start : Holds (entryState function frame world))
    (preserved : ∀ state next, Runs module host function frame world state → Holds state →
      Stepped module host function state next → Holds next) : Holds state := by
  have both : Runs module host function frame world state ∧ Holds state :=
    Machine.invariant_of_reaches
      (fun state => Runs module host function frame world state ∧ Holds state)
      (fun ⟨runs, holds⟩ stepped =>
        ⟨runs.next (step_eq_inl.mp stepped), preserved _ _ runs holds (step_eq_inl.mp stepped)⟩)
      ⟨Machine.Reaches.refl _, start⟩ runs
  exact both.2

/-- A register that is available at its own definition's dominated place keeps
the word it had there until that definition is made again. -/
theorem SsaForm.kept (ssa : SsaForm function) {definition : Point} {reg : IrId}
    {state next : State E} (runs : Runs module host function frame world state)
    (stepped : Stepped module host function state next)
    (available : Available function reg definition)
    (dominates : Dominates function definition (pointOf next))
    (elsewhere : pointOf next ≠ definition) : next.frame.regs reg = state.frame.regs reg := by
  apply regs_of_stepped stepped
  intro defines
  have back := ssa.dominates defines available
  exact elsewhere (Graph.Dominates.antisymm (runs.next stepped).reachable dominates back).symm

/-- What is established each time `definition` is reached holds wherever it
dominates, as long as it is about registers available there. -/
theorem SsaForm.holds_where_dominated (ssa : SsaForm function) (support : List IrId)
    (Holds : Regs → Prop) {definition : Point}
    (congruent : ∀ {regs regs' : Regs}, (∀ reg ∈ support, regs' reg = regs reg) →
      Holds regs → Holds regs')
    (available : ∀ reg ∈ support, Available function reg definition)
    (inner : definition ≠ entryPoint function)
    (established : ∀ {state next : State E}, Runs module host function frame world state →
      Stepped module host function state next → pointOf next = definition →
      Holds next.frame.regs)
    {state : State E} (runs : Runs module host function frame world state)
    (dominates : Dominates function definition (pointOf state)) : Holds state.frame.regs := by
  refine Runs.induction (fun state =>
    Dominates function definition (pointOf state) → Holds state.frame.regs) runs ?_ ?_ dominates
  · intro dominates
    have atEntry := dominates _ .start
    rw [List.mem_singleton] at atEntry
    exact absurd atEntry inner
  · intro state next runs holds stepped dominates
    by_cases arrived : pointOf next = definition
    · exact established runs stepped arrived
    · refine congruent (fun reg member =>
        ssa.kept runs stepped (available reg member) dominates arrived) (holds ?_)
      exact dominates.of_edge (edge_of_stepped stepped) (Ne.symm arrived)

theorem SsaForm.operand_ne_dest (ssa : SsaForm function) {id : IrBlockId} {block : IrBasicBlock}
    {pc : Nat} {inst : IrInstruction} {dest : IrId} (found : function.getBlock id = some block)
    (here : block.instructions[pc]? = some inst) (writes : inst.writes = some dest)
    (reachable : Reachable function (id, pc)) : dest ∉ inst.uses := by
  intro used
  have available := ssa.operands found here dest used
  have back := ssa.dominates (.instruction found here writes) available
  have same := Graph.Dominates.antisymm reachable back (dominates_next id pc)
  simp at same

theorem available_after {id : IrBlockId} {pc : Nat} {reg : IrId}
    (available : Available function reg (id, pc)) : Available function reg (id, pc + 1) :=
  available.of_dominated (dominates_next id pc)

theorem inner_of_succ (id : IrBlockId) (pc : Nat) : (id, pc + 1) ≠ entryPoint function := by
  intro same
  cases same

theorem executed_of_point {state next : State E} {id : IrBlockId} {pc : Nat}
    (stepped : Stepped module host function state next) (arrived : pointOf next = (id, pc + 1)) :
    pointOf state = (id, pc) ∧ ∃ block inst, function.getBlock id = some block ∧
      block.instructions[pc]? = some inst ∧
      execute module host function inst state.frame state.world = .ok (next.frame, next.world) := by
  cases stepped with
  | executed found here ran =>
      cases arrived
      exact ⟨rfl, _, _, found, here, ran⟩
  | moved => cases arrived

/-- Wherever the result of a pure instruction is available, it is what the
instruction computes from the operands as they stand. -/
theorem SsaForm.equation (ssa : SsaForm function) {id : IrBlockId} {block : IrBasicBlock}
    {pc : Nat} {inst : IrInstruction} {dest : IrId} (found : function.getBlock id = some block)
    (here : block.instructions[pc]? = some inst) (writes : inst.writes = some dest)
    (isPure : ∀ get, (pureValue (declOf function inst) get inst).isSome)
    {state : State E} (runs : Runs module host function frame world state)
    (available : Available function dest (pointOf state)) :
    pureValue (declOf function inst) state.frame.regs inst =
      some (.ok (state.frame.regs dest)) := by
  have defines : DefinesAt function dest (id, pc + 1) := .instruction found here writes
  refine ssa.holds_where_dominated (dest :: inst.uses)
    (fun regs => pureValue (declOf function inst) regs inst = some (.ok (regs dest)))
    ?_ ?_ (inner_of_succ id pc) ?_ runs (ssa.dominates defines available)
  · intro regs regs' agree holds
    rw [agree dest List.mem_cons_self, ← holds]
    exact pureValue_congr fun reg used => agree reg (List.mem_cons_of_mem _ used)
  · intro reg member
    rcases List.mem_cons.mp member with rfl | used
    · exact Available.here defines
    · exact available_after (ssa.operands found here reg used)
  · intro state next runs stepped arrived
    obtain ⟨before, block', inst', found', here', ran⟩ := executed_of_point stepped arrived
    cases found.symm.trans found'
    cases here.symm.trans here'
    obtain ⟨result, evaluated, after⟩ := execute_eq_ok.mp ran
    obtain ⟨value, computes⟩ := Option.isSome_iff_exists.mp (isPure state.frame.regs)
    rw [eval_of_pure computes] at evaluated
    obtain ⟨word, computed, made⟩ := bind_eq_ok.mp evaluated
    simp only [Except.ok.injEq, Prod.mk.injEq] at made
    obtain ⟨rfl, -⟩ := made
    have notUsed := ssa.operand_ne_dest found here writes (before ▸ runs.reachable)
    have unchanged : ∀ reg ∈ inst.uses, state.frame.regs reg = next.frame.regs reg := by
      intro reg used
      rw [after, regs_after_of_ne]
      rw [writes]
      rintro ⟨⟩
      exact notUsed used
    rw [← pureValue_congr unchanged, computes, lift_eq_ok.mp computed, after,
      regs_after_some _ _ writes, Regs.set_same]

end Rayzor.Ssa
