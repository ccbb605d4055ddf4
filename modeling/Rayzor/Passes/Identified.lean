import Rayzor.Passes.ValueKeys

/-!
Contract: registers that value numbering takes for equal, and exactly when they
are.
-/

namespace Rayzor.Passes.ValueNumbering

open Ir Interp Library Ssa

/-- An instruction with a key and the register it assigns. -/
structure Keyed (function : IrFunction) (name : IrId → IrId) (key : ValueKey) (reg : IrId)
    (point : Point) (inst : IrInstruction) : Prop where
  here : ∃ block, function.getBlock point.1 = some block ∧ block.instructions[point.2]? = some inst
  writes : inst.writes = some reg
  keyed : keyWith name inst = some key

/-- Operands go by their own name or by that of a register they were identified
with. -/
def NamedBy (log : List (IrId × IrId)) (name : IrId → IrId) : Prop :=
  ∀ reg, name reg = reg ∨ (reg, name reg) ∈ log

/-- No instruction strictly between two places of a block changes the global. -/
def Undisturbed (function : IrFunction) (globalId : IrGlobalId) (id : IrBlockId)
    (first last : Nat) : Prop :=
  ∀ block, function.getBlock id = some block → ∀ (between : Nat) inst, first < between →
    between < last → block.instructions[between]? = some inst → clobbers globalId inst = false

/-- Two instructions with one key, the earlier before the later on every path,
and in the same block with the global untouched in between if it is one they
load. -/
structure Match (function : IrFunction) (log : List (IrId × IrId)) (later earlier : IrId)
    (point point' : Point) (inst inst' : IrInstruction) : Prop where
  keys : ∃ name name' key, NamedBy log name ∧ NamedBy log name' ∧
    Keyed function name key later point inst ∧ Keyed function name' key earlier point' inst' ∧
    ∀ globalId, key = .loadGlobal globalId →
      point'.1 = point.1 ∧ point'.2 < point.2 ∧
        Undisturbed function globalId point.1 point'.2 point.2
  dominates : Dominates function (point'.1, point'.2 + 1) point

def Identified (function : IrFunction) (log : List (IrId × IrId)) (later earlier : IrId) : Prop :=
  ∃ point point' inst inst', Match function log later earlier point point' inst inst'

/-- A list of pairs, newest first, each identified by way of those before it. -/
inductive Justified (function : IrFunction) : List (IrId × IrId) → Prop where
  | nil : Justified function []
  | cons {log : List (IrId × IrId)} {later earlier : IrId}
      (identified : Identified function log later earlier) (rest : Justified function log) :
      Justified function ((later, earlier) :: log)

section Runs

variable {E : Type}

/-- The two registers hold one value wherever the later one is available. -/
def HoldEqual (module : IrModule) (host : Host E) (function : IrFunction)
    (later earlier : IrId) : Prop :=
  ∀ {frame world state}, Runs module host function frame world state →
    Available function later (pointOf state) →
    state.frame.regs later = state.frame.regs earlier

/-- Whenever the later instruction runs, reading it at the earlier one's types
gives the word it computes. -/
def ReadsAlike (module : IrModule) (host : Host E) (function : IrFunction)
    (later earlier : IrId) : Prop :=
  ∀ {frame world state block inst id' block'} {pc' : Nat} {inst'},
    Runs module host function frame world state →
    function.getBlock state.block = some block → block.instructions[state.pc]? = some inst →
    inst.writes = some later →
    function.getBlock id' = some block' → block'.instructions[pc']? = some inst' →
    inst'.writes = some earlier →
    ∀ word, operation (declOf function inst) state.frame.regs state.world.globals inst =
        some (.ok word) →
      operation (declOf function inst') state.frame.regs state.world.globals (readAs inst' inst) =
        some (.ok word)

variable {module : IrModule} {host : Host E} {function : IrFunction} {frame : Frame}
  {world : World E} {log : List (IrId × IrId)} {later earlier : IrId} {point point' : Point}
  {inst inst' : IrInstruction}

theorem readsAlike_of_sameTypes
    (same : ∀ {id block inst id' block'} {pc pc' : Nat} {inst'},
      function.getBlock id = some block → block.instructions[pc]? = some inst →
      inst.writes = some later → function.getBlock id' = some block' →
      block'.instructions[pc']? = some inst' → inst'.writes = some earlier →
      declOf function inst' = declOf function inst ∧ readAs inst' inst = inst) :
    ReadsAlike module host function later earlier := by
  intro frame world state block inst id' block' pc' inst' _ found here writes found' here' writes'
    word computed
  obtain ⟨sameDecl, sameText⟩ := same found here writes found' here' writes'
  rw [sameDecl, sameText]
  exact computed

theorem loaded_undisturbed (ssa : SsaForm function) {id : IrBlockId} {block : IrBasicBlock}
    {pc last : Nat} {dest : IrId} {globalId : IrGlobalId} {ty : IrType}
    (found : function.getBlock id = some block)
    (here : block.instructions[pc]? = some (.loadGlobal dest globalId ty))
    (undisturbed : Undisturbed function globalId id pc last) {state : State E}
    (runs : Runs module host function frame world state) (inBlock : state.block = id)
    (after : pc < state.pc) (before : state.pc ≤ last) :
    state.frame.regs dest =
      ⟨loadGlobalMt ty, canon (state.world.globals globalId) (loadGlobalMt ty)⟩ := by
  refine Runs.induction (fun state => state.block = id → pc < state.pc →
    state.pc ≤ last → state.frame.regs dest =
      ⟨loadGlobalMt ty, canon (state.world.globals globalId) (loadGlobalMt ty)⟩)
    runs ?_ ?_ inBlock after before
  · intro _ impossible
    exact absurd impossible (Nat.not_lt_zero pc)
  · intro state next runs holds stepped inBlock after before
    cases stepped with
    | moved => exact absurd after (Nat.not_lt_zero pc)
    | @executed other inst nextFrame nextWorld foundOther hereOther ran =>
      simp only at inBlock after before ⊢
      subst inBlock
      cases found.symm.trans foundOther
      obtain ⟨result, evaluated, rfl⟩ := execute_eq_ok.mp ran
      rcases Nat.lt_or_eq_of_le (Nat.le_of_lt_succ after) with earlier | same
      · have kept := eval_globals evaluated
          (undisturbed block found state.pc inst earlier before hereOther)
        have notAgain : inst.writes ≠ some dest := by
          intro writes
          have same := ssa.single (.instruction found hereOther writes)
            (.instruction found here rfl)
          simp only [Prod.mk.injEq, Nat.add_right_cancel_iff, true_and] at same
          omega
        rw [regs_after_of_ne notAgain, kept]
        exact holds rfl earlier (Nat.le_of_lt before)
      · subst same
        cases here.symm.trans hereOther
        simp only [eval, computing_eq_ok] at evaluated
        obtain ⟨word, computed, same⟩ := evaluated
        cases same
        cases computed
        rw [regs_after_some _ _ rfl, Regs.set_same]

/-- At the later instruction, the earlier register is what the later's operands
give when they are read at the earlier's types. -/
theorem Match.reread (ssa : SsaForm function)
    (matched : Match function log later earlier point point' inst inst')
    (equal : ∀ pair ∈ log, HoldEqual module host function pair.1 pair.2)
    {state : State E} (runs : Runs module host function frame world state)
    (atPoint : pointOf state = point) :
    operation (declOf function inst') state.frame.regs state.world.globals (readAs inst' inst) =
      some (.ok (state.frame.regs earlier)) := by
  obtain ⟨name, name', key, named, named', keyed, keyed', stable⟩ := matched.keys
  obtain ⟨block, found, here⟩ := keyed.here
  obtain ⟨block', found', here'⟩ := keyed'.here
  have resolves : ∀ {naming : IrId → IrId}, NamedBy log naming → ∀ reg,
      Available function reg point → state.frame.regs (naming reg) = state.frame.regs reg := by
    intro naming namedBy reg available
    rcases namedBy reg with same | member
    · rw [same]
    · exact (equal _ member runs (atPoint ▸ available)).symm
  have operand : ∀ reg ∈ inst.uses, Available function reg point :=
    fun reg used => ssa.operands found here reg used
  have operand' : ∀ reg ∈ inst'.uses, Available function reg point := fun reg used =>
    (available_after (ssa.operands found' here' reg used)).of_dominated matched.dominates
  refine operation_of_same_key keyed.keyed keyed'.keyed
    (fun reg used => resolves named reg (operand reg used))
    (fun reg used => resolves named' reg (operand' reg used)) ?_
  have available : Available function earlier (pointOf state) := by
    rw [atPoint]
    exact Available.of_dominates (.instruction found' here' keyed'.writes) matched.dominates
  by_cases isLoad : ∃ globalId, key = .loadGlobal globalId
  · obtain ⟨globalId, rfl⟩ := isLoad
    obtain ⟨sameBlock, before, undisturbed⟩ := stable globalId rfl
    have isLoad := keyed'.keyed
    have writes := keyed'.writes
    cases inst'
    case loadGlobal dest' globalId' ty =>
      cases isLoad
      cases writes
      rw [← sameBlock] at undisturbed
      rw [loaded_undisturbed ssa found' here' undisturbed runs
        (by rw [sameBlock, ← atPoint]; rfl) (by rw [← atPoint] at before; exact before)
        (by rw [← atPoint]; exact Nat.le_refl _)]
      rfl
    all_goals cases isLoad
  · have equation := ssa.equation found' here' keyed'.writes
      (isPure_of_key keyed'.keyed fun globalId same => isLoad ⟨globalId, same⟩) runs available
    have key := keyed'.keyed
    cases inst'
    case loadGlobal => exact absurd ⟨_, (Option.some.inj key).symm⟩ isLoad
    all_goals exact equation

theorem Keyed.ran {name : IrId → IrId} {key : ValueKey} (keyed : Keyed function name key later point inst)
    {next : Frame} {state : State E} {world' : World E}
    (ran : execute module host function inst state.frame state.world = .ok (next, world')) :
    ∃ word, operation (declOf function inst) state.frame.regs state.world.globals inst =
        some (.ok word) ∧ next = state.frame.after inst (some word) := by
  obtain ⟨result, evaluated, after⟩ := execute_eq_ok.mp ran
  obtain ⟨value, computes⟩ := Option.isSome_iff_exists.mp
    (operation_isSome keyed.keyed
      state.world.globals)
  rw [eval_of_operation computes, computing_eq_ok] at evaluated
  obtain ⟨word, rfl, same⟩ := evaluated
  cases same
  exact ⟨word, computes, after⟩

theorem Match.keyed (matched : Match function log later earlier point point' inst inst') :
    (∃ name key, Keyed function name key later point inst) ∧
      ∃ name key, Keyed function name key earlier point' inst' := by
  obtain ⟨name, name', key, -, -, keyed, keyed', -⟩ := matched.keys
  exact ⟨⟨name, key, keyed⟩, ⟨name', key, keyed'⟩⟩

theorem Keyed.defines {name : IrId → IrId} {key : ValueKey}
    (keyed : Keyed function name key later point inst) :
    DefinesAt function later (point.1, point.2 + 1) := by
  obtain ⟨block, found, here⟩ := keyed.here
  exact .instruction found here keyed.writes

theorem Match.available (ssa : SsaForm function)
    (matched : Match function log later earlier point point' inst inst') {place : Point}
    (available : Available function later place) : Available function earlier place := by
  obtain ⟨⟨_, _, keyed⟩, _, _, keyed'⟩ := matched.keyed
  have after := (Available.of_dominates keyed'.defines matched.dominates).of_dominated
    (dominates_next point.1 point.2)
  exact after.of_dominated (ssa.dominates keyed.defines available)

theorem Match.holdEqual (ssa : SsaForm function)
    (matched : Match function log later earlier point point' inst inst')
    (equal : ∀ pair ∈ log, HoldEqual module host function pair.1 pair.2)
    (alike : ReadsAlike module host function later earlier) :
    HoldEqual module host function later earlier := by
  intro frame world state runs available
  obtain ⟨⟨_, _, keyed⟩, _, _, keyed'⟩ := matched.keyed
  have laterAt := keyed.defines
  have earlierAt := matched.available ssa (Available.here laterAt)
  refine ssa.holds_where_dominated [later, earlier]
    (fun regs => regs later = regs earlier) ?_ ?_ (inner_of_succ _ _) ?_ runs
    (ssa.dominates laterAt available)
  · intro regs regs' agree same
    rw [agree later (by simp), agree earlier (by simp), same]
  · intro reg member
    simp only [List.mem_cons, List.not_mem_nil, or_false] at member
    rcases member with rfl | rfl
    · exact Available.here laterAt
    · exact earlierAt
  · intro state next runs stepped arrived
    by_cases same : earlier = later
    · rw [same]
    obtain ⟨before, block, other, found, here, ran⟩ := executed_of_point stepped arrived
    obtain ⟨block', found', here'⟩ := keyed.here
    cases found.symm.trans found'
    cases here.symm.trans here'
    obtain ⟨earlierBlock, earlierFound, earlierHere⟩ := keyed'.here
    obtain ⟨word, computed, after⟩ := keyed.ran ran
    have atPoint : pointOf state = point := before
    have sameWord := alike runs (by rw [← atPoint] at found; exact found)
      (by rw [← atPoint] at here; exact here) keyed.writes earlierFound earlierHere keyed'.writes
      word computed
    rw [matched.reread ssa equal runs atPoint, Option.some.injEq, Except.ok.injEq] at sameWord
    rw [after, regs_after_some _ _ keyed.writes, Regs.set_same,
      Regs.set_of_ne _ _ same, sameWord]

theorem Match.distinct (ssa : SsaForm function)
    (matched : Match function log later earlier point point' inst inst')
    (reachable : Reachable function point) : earlier ≠ later := by
  rintro rfl
  obtain ⟨⟨_, _, keyed⟩, _, _, keyed'⟩ := matched.keyed
  have again := matched.dominates
  rw [ssa.single keyed'.defines keyed.defines] at again
  have same := Graph.Dominates.antisymm reachable again (dominates_next point.1 point.2)
  exact absurd (congrArg Prod.snd same) (Nat.succ_ne_self point.2)

theorem Match.readsAlike (ssa : SsaForm function)
    (matched : Match function log later earlier point point' inst inst')
    (equal : ∀ pair ∈ log, HoldEqual module host function pair.1 pair.2)
    (same : HoldEqual module host function later earlier) :
    ReadsAlike module host function later earlier := by
  intro frame world state block other id' block' pc' other' runs found here writes found' here'
    writes' word computed
  obtain ⟨⟨_, _, keyed⟩, _, _, keyed'⟩ := matched.keyed
  have atPoint : pointOf state = point := by
    have located := ssa.single (.instruction found here writes) keyed.defines
    simp only [Prod.mk.injEq, Nat.add_right_cancel_iff] at located
    exact Prod.ext located.1 located.2
  have located' := ssa.single (.instruction found' here' writes') keyed'.defines
  simp only [Prod.mk.injEq, Nat.add_right_cancel_iff] at located'
  obtain ⟨ownBlock, ownFound, ownHere⟩ := keyed.here
  obtain ⟨ownBlock', ownFound', ownHere'⟩ := keyed'.here
  obtain ⟨sameId, samePc⟩ := located'
  subst sameId samePc
  rw [← atPoint] at ownFound ownHere
  cases found.symm.trans ownFound
  cases here.symm.trans ownHere
  cases found'.symm.trans ownFound'
  cases here'.symm.trans ownHere'
  have evaluated : eval module host (declOf function inst) (state.frame.site inst)
      state.frame.regs inst state.world = computing state.world (.ok word) :=
    eval_of_operation computed (state.frame.site inst)
  have ran : execute module host function inst state.frame state.world =
      .ok (state.frame.after inst (some word), state.world) :=
    execute_eq_ok.mpr ⟨some word, evaluated, rfl⟩
  have stepped := Stepped.executed found here ran
  have after := same (runs.next stepped) (Available.here (.instruction found here writes))
  have different := matched.distinct ssa (atPoint ▸ runs.reachable)
  simp only [regs_after_some _ _ writes, Regs.set_same, Regs.set_of_ne _ _ different] at after
  rw [matched.reread ssa equal runs atPoint, after]

/-- All the pairs of a log hold equal values exactly when all of them read
alike. -/
theorem holdEqual_iff {E : Type} (module : IrModule) (host : Host E) (ssa : SsaForm function) (justified : Justified function log) :
    (∀ pair ∈ log, HoldEqual module host function pair.1 pair.2) ↔
      ∀ pair ∈ log, ReadsAlike module host function pair.1 pair.2 := by
  induction justified with
  | nil => simp
  | cons identified _ ih =>
      obtain ⟨_, _, _, _, matched⟩ := identified
      simp only [List.forall_mem_cons]
      constructor
      · rintro ⟨same, equal⟩
        exact ⟨matched.readsAlike ssa equal same, ih.mp equal⟩
      · rintro ⟨alike, others⟩
        have equal := ih.mpr others
        exact ⟨matched.holdEqual ssa equal alike, equal⟩

theorem Justified.available (ssa : SsaForm function) (justified : Justified function log)
    {pair : IrId × IrId} (member : pair ∈ log) {place : Point}
    (available : Available function pair.1 place) : Available function pair.2 place := by
  induction justified with
  | nil => cases member
  | cons identified _ ih =>
      rcases List.mem_cons.mp member with rfl | inner
      · obtain ⟨_, _, _, _, matched⟩ := identified
        exact matched.available ssa available
      · exact ih inner

end Runs

end Rayzor.Passes.ValueNumbering
