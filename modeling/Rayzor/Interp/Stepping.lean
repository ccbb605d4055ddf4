import Rayzor.Interp.Machine

/-!
Contract: what one step of a function's machine does, said once.

Owns: the moves along an edge as a relation between the phis of the target and
the words they receive, and the inversion of `step` into an instruction run or
an edge taken.
-/

namespace Rayzor.Interp

open Ir

theorem mapM_eq_ok {ε α β : Type} {compute : α → Except ε β} {inputs : List α}
    {outputs : List β} :
    inputs.mapM compute = .ok outputs ↔
      List.Forall₂ (fun input output => compute input = .ok output) inputs outputs := by
  induction inputs generalizing outputs with
  | nil =>
      rw [List.mapM_nil]
      constructor
      · rintro ⟨⟩
        exact .nil
      · rintro ⟨⟩
        rfl
  | cons input rest ih =>
      rw [List.mapM_cons, bind_eq_ok]
      constructor
      · rintro ⟨output, computed, collected⟩
        obtain ⟨others, collectedRest, same⟩ := bind_eq_ok.mp collected
        cases same
        exact .cons computed (ih.mp collectedRest)
      · rintro (_ | ⟨computed, collected⟩)
        refine ⟨_, computed, ?_⟩
        rw [ih.mpr collected]
        rfl

theorem mapM_congr {ε α β γ : Type} {compute : α → Except ε γ} {compute' : β → Except ε γ}
    {inputs : List α} {inputs' : List β}
    (alike : List.Forall₂ (fun input input' => compute input = compute' input') inputs inputs') :
    inputs.mapM compute = inputs'.mapM compute' := by
  induction alike with
  | nil => rfl
  | cons same _ ih =>
      rw [List.mapM_cons, List.mapM_cons, same, ih]

section Edges

variable {function : IrFunction} {source target : IrBlockId} {regs regs' : Regs}

theorem phiMove_eq_ok {phi : IrPhiNode} {move : IrPhiNode × IrId} :
    phiMove source phi = .ok move ↔ phi.valueFrom source = some move.2 ∧ move.1 = phi := by
  obtain ⟨phi', value'⟩ := move
  unfold phiMove
  cases phi.valueFrom source with
  | none => simp
  | some value => simp [and_comm, eq_comm]

theorem edgeMoves_eq_ok {moves : List (IrPhiNode × IrId)} :
    edgeMoves function source target = .ok moves ↔
      ∃ block, function.getBlock target = some block ∧
        List.Forall₂ (fun phi move => phi.valueFrom source = some move.2 ∧ move.1 = phi)
          block.phiNodes moves := by
  unfold edgeMoves
  cases found : function.getBlock target with
  | none => simp
  | some block => simp only [Option.some.injEq, exists_eq_left', mapM_eq_ok, phiMove_eq_ok]

/-- The registers after an edge: each phi of the target has the word its
incoming value gives, and nothing else has changed. -/
structure Moved (block : IrBasicBlock) (source : IrBlockId) (regs regs' : Regs) : Prop where
  phis : (block.phiNodes.map (·.dest)).Nodup → ∀ phi ∈ block.phiNodes,
    ∃ value, phi.valueFrom source = some value ∧
      phiWord phi.ty (regs value) = .ok (regs' phi.dest)
  others : ∀ reg ∉ block.phiNodes.map (·.dest), regs' reg = regs reg

theorem moved_of_takeMoves {block : IrBasicBlock} {moves : List (IrPhiNode × IrId)}
    (listed : List.Forall₂ (fun phi move => phi.valueFrom source = some move.2 ∧ move.1 = phi)
      block.phiNodes moves)
    (taken : takeMoves regs moves = .ok regs') : Moved block source regs regs' := by
  obtain ⟨words, collected, same⟩ := bind_eq_ok.mp taken
  cases same
  rw [mapM_eq_ok] at collected
  have phisMoved : moves.map Prod.fst = block.phiNodes := by
    rw [← List.forall₂_eq_eq_eq, List.forall₂_map_left_iff]
    exact listed.flip.imp fun _ _ matched => matched.2
  have dests : moves.map (·.1.dest) = block.phiNodes.map (·.dest) := by
    rw [← phisMoved, List.map_map]
    rfl
  have sameLength : (moves.map (·.1.dest)).length = words.length := by
    rw [List.length_map, collected.length_eq]
  have assigned : ((moves.map (·.1.dest)).zip words).map Prod.fst = block.phiNodes.map (·.dest) := by
    rw [List.map_fst_zip sameLength.le, dests]
  constructor
  · intro distinct phi member
    obtain ⟨index, inside, rfl⟩ := List.mem_iff_getElem.mp member
    have inMoves : index < moves.length := listed.length_eq ▸ inside
    have inWords : index < words.length := collected.length_eq ▸ inMoves
    obtain ⟨value, isPhi⟩ := listed.get inside inMoves
    have received := collected.get inMoves inWords
    refine ⟨_, value, ?_⟩
    simp only [List.get_eq_getElem] at isPhi received ⊢
    rw [isPhi] at received
    rw [received]
    congr 1
    refine (regs.setAll_of_mem (assigned ▸ distinct) ?_).symm
    refine List.mem_iff_getElem.mpr ⟨index, ?_, ?_⟩
    · simp [inMoves, inWords]
    · simp [isPhi]
  · intro reg absent
    exact regs.setAll_of_notMem (assigned ▸ absent)

theorem moved_of_transfer {term : IrTerminator}
    (transferred : transfer function source term target regs = .ok regs') :
    ∃ block, function.getBlock target = some block ∧ Moved block source regs regs' := by
  obtain ⟨_, -, transferred⟩ := bind_eq_ok.mp transferred
  obtain ⟨moves, listed, taken⟩ := bind_eq_ok.mp transferred
  obtain ⟨block, found, listed⟩ := edgeMoves_eq_ok.mp listed
  exact ⟨block, found, moved_of_takeMoves listed taken⟩

theorem chosenTarget_mem {term : IrTerminator} (chosen : chosenTarget regs term = some target) :
    target ∈ term.successors := by
  cases term with
  | branch other =>
      cases chosen
      exact List.mem_singleton_self _
  | condBranch condition trueTarget falseTarget =>
      cases chosen
      simp only [IrTerminator.successors, List.mem_cons, List.not_mem_nil, or_false]
      split_ifs
      · exact Or.inl rfl
      · exact Or.inr rfl
  | switch value cases default =>
      simp only [chosenTarget, Option.some.injEq] at chosen
      subst chosen
      simp only [IrTerminator.successors, List.mem_append, List.mem_singleton]
      cases found : cases.find? fun entry => entry.1 == sext (regs value).bits (regs value).mt with
      | none => exact Or.inr rfl
      | some entry =>
          exact Or.inl (List.mem_map.mpr ⟨entry, List.mem_of_find?_eq_some found, rfl⟩)
  | ret _ => cases chosen
  | unreachable => cases chosen
  | noReturn _ => cases chosen

theorem chosenTarget_renameUses {rename : IrId → IrId} {regs regs' : Regs} {term : IrTerminator}
    (agree : ∀ reg ∈ term.reads, regs' (rename reg) = regs reg) :
    chosenTarget regs' (term.renameUses rename) = chosenTarget regs term := by
  cases term with
  | condBranch condition trueTarget falseTarget =>
      have same := agree condition (by simp [IrTerminator.reads])
      simp only [IrTerminator.renameUses, chosenTarget, same]
  | switch value cases default =>
      have same := agree value (by simp [IrTerminator.reads])
      simp only [IrTerminator.renameUses, chosenTarget, same]
  | branch _ => rfl
  | ret _ => rfl
  | unreachable => rfl
  | noReturn _ => rfl

end Edges

variable {E : Type} {module : IrModule} {host : Host E} {function : IrFunction}

theorem execute_eq_ok {inst : IrInstruction} {frame next : Frame} {world world' : World E} :
    execute module host function inst frame world = .ok (next, world') ↔
      ∃ result, eval module host (declOf function inst) (frame.site inst) frame.regs inst world =
        .ok (result, world') ∧ next = frame.after inst result := by
  unfold execute
  rw [bind_eq_ok]
  constructor
  · rintro ⟨⟨result, world''⟩, evaluated, same⟩
    injection same with same
    injection same with frames worlds
    subst frames worlds
    exact ⟨result, evaluated, rfl⟩
  · rintro ⟨result, evaluated, rfl⟩
    exact ⟨_, evaluated, rfl⟩

theorem regs_after_some {inst : IrInstruction} {dest : IrId} (frame : Frame) (word : Word)
    (writes : inst.writes = some dest) :
    (frame.after inst (some word)).regs = frame.regs.set dest word := by
  simp [Frame.after, writes]

theorem regs_after_of_ne {inst : IrInstruction} {reg : IrId} {frame : Frame}
    {result : Option Word} (untouched : inst.writes ≠ some reg) :
    (frame.after inst result).regs reg = frame.regs reg := by
  cases written : inst.writes with
  | none => simp [Frame.after, written]
  | some dest =>
      have different : reg ≠ dest := by
        rintro rfl
        exact untouched written
      cases result with
      | none => simp [Frame.after, written]
      | some word => simp [Frame.after, written, Regs.set_of_ne _ _ different]

inductive Stepped (module : IrModule) (host : Host E) (function : IrFunction) :
    State E → State E → Prop where
  | executed {state : State E} {block : IrBasicBlock} {inst : IrInstruction} {frame : Frame}
      {world : World E} (found : function.getBlock state.block = some block)
      (here : block.instructions[state.pc]? = some inst)
      (ran : execute module host function inst state.frame state.world = .ok (frame, world)) :
      Stepped module host function state { state with pc := state.pc + 1, frame, world }
  | moved {state : State E} {block : IrBasicBlock} {target : IrBlockId} {regs : Regs}
      (found : function.getBlock state.block = some block)
      (done : block.instructions.length ≤ state.pc)
      (chosen : chosenTarget state.frame.regs block.terminator = some target)
      (transferred :
        transfer function state.block block.terminator target state.frame.regs = .ok regs) :
      Stepped module host function state
        { block := target, pc := 0, frame := { state.frame with regs }, world := state.world }

theorem terminate_of_chosen {source target : IrBlockId} {term : IrTerminator} {frame : Frame}
    {world : World E} (chosen : chosenTarget frame.regs term = some target) :
    terminate function source term frame world =
      arrive target frame world (transfer function source term target frame.regs) := by
  cases term with
  | ret _ => cases chosen
  | unreachable => cases chosen
  | noReturn _ => cases chosen
  | branch _ => simp only [terminate, chosen]
  | condBranch _ _ _ => simp only [terminate, chosen]
  | switch _ _ _ => simp only [terminate, chosen]

theorem terminate_eq_inl {source : IrBlockId} {term : IrTerminator} {frame : Frame}
    {world : World E} {next : State E} :
    terminate function source term frame world = .inl next ↔
      ∃ target regs, chosenTarget frame.regs term = some target ∧
        transfer function source term target frame.regs = .ok regs ∧
        next = { block := target, pc := 0, frame := { frame with regs }, world } := by
  cases chosen : chosenTarget frame.regs term with
  | none =>
      cases term <;> simp_all [terminate, chosenTarget]
  | some target =>
      rw [terminate_of_chosen chosen]
      cases transferred : transfer function source term target frame.regs with
      | error fault => simp [arrive, transferred]
      | ok regs => simp [arrive, transferred, eq_comm]

theorem step_eq_inl {state next : State E} :
    step module host function state = .inl next ↔ Stepped module host function state next := by
  constructor
  · intro stepped
    unfold step at stepped
    cases found : function.getBlock state.block with
    | none => simp [found] at stepped
    | some block =>
        simp only [found] at stepped
        cases here : block.instructions[state.pc]? with
        | some inst =>
            simp only [here] at stepped
            cases ran : execute module host function inst state.frame state.world with
            | error _ => simp [ran] at stepped
            | ok result =>
                simp only [ran, Sum.inl.injEq] at stepped
                subst stepped
                exact .executed found here ran
        | none =>
            simp only [here] at stepped
            obtain ⟨target, regs, chosen, transferred, rfl⟩ := terminate_eq_inl.mp stepped
            exact .moved found (List.getElem?_eq_none_iff.mp here) chosen transferred
  · rintro (⟨found, here, ran⟩ | ⟨found, done, chosen, transferred⟩)
    · simp [step, found, here, ran]
    · simp only [step, found, List.getElem?_eq_none_iff.mpr done]
      exact terminate_eq_inl.mpr ⟨_, _, chosen, transferred, rfl⟩

end Rayzor.Interp
