import Rayzor.Interp.Locality
import Rayzor.Ssa.Reads
import Rayzor.Ssa.Shortened

/-!
Contract: a function without some of its instructions and phis, and with the
operands of the others renamed, behaves as it did.

Owns: trimmed functions, what has to be true in the runs of the function for
nothing to be missed (`Harmless`), and that a call of the trimmed function then
behaves as the same call of the function.
-/

namespace Rayzor.Interp

/-- Leaving out inputs that compute something leaves out what they compute. -/
theorem mapM_filter_map {ε α α' β β' : Type} {compute : α → Except ε β}
    {compute' : α' → Except ε β'} {keep : α → Bool} {keepOutput : β → Bool} {change : α → α'}
    {changeOutput : β → β'} {inputs : List α}
    (kept : ∀ input ∈ inputs, keep input = true →
      compute' (change input) = (compute input).map changeOutput ∧
        ∀ output, compute input = .ok output → keepOutput output = true)
    (dropped : ∀ input ∈ inputs, keep input = false →
      ∃ output, compute input = .ok output ∧ keepOutput output = false) :
    ((inputs.filter keep).map change).mapM compute' =
      (inputs.mapM compute).map fun outputs => (outputs.filter keepOutput).map changeOutput := by
  induction inputs with
  | nil => rfl
  | cons input rest ih =>
      have later := ih (fun other member => kept other (List.mem_cons_of_mem _ member))
        fun other member => dropped other (List.mem_cons_of_mem _ member)
      rw [List.mapM_cons]
      cases keeps : keep input with
      | false =>
          obtain ⟨output, computed, leaves⟩ := dropped input List.mem_cons_self keeps
          rw [List.filter_cons_of_neg (by simp [keeps]), later, computed]
          cases rest.mapM compute with
          | error _ => rfl
          | ok outputs =>
              change Except.ok _ = Except.ok (((output :: outputs).filter keepOutput).map _)
              rw [List.filter_cons_of_neg (by simp [leaves])]
      | true =>
          obtain ⟨same, stays⟩ := kept input List.mem_cons_self keeps
          rw [List.filter_cons_of_pos keeps, List.map_cons, List.mapM_cons, same, later]
          cases computed : compute input with
          | error _ => rfl
          | ok output =>
              cases rest.mapM compute with
              | error _ => rfl
              | ok outputs =>
                  change Except.ok _ = Except.ok (((output :: outputs).filter keepOutput).map _)
                  rw [List.filter_cons_of_pos (stays output computed)]
                  rfl

theorem mapM_map_outputs {ε α β β' : Type} {compute : α → Except ε β}
    {compute' : α → Except ε β'} {change : β → β'} {inputs : List α}
    (same : ∀ input ∈ inputs, compute' input = (compute input).map change) :
    inputs.mapM compute' = (inputs.mapM compute).map (·.map change) := by
  have all : ((inputs.filter fun _ => true).map id).mapM compute' =
      (inputs.mapM compute).map fun outputs => (outputs.filter fun _ => true).map change :=
    mapM_filter_map (fun input member _ => ⟨same input member, fun _ _ => rfl⟩)
      (fun _ _ impossible => nomatch impossible)
  simpa only [List.filter_true, List.map_id] using all

end Rayzor.Interp

namespace Rayzor.Ssa

open Ir Interp Library

/-- What stays of a function, and by which names its operands go. -/
structure Trimming where
  keep : IrInstruction → Bool
  keepPhi : IrPhiNode → Bool
  name : IrBasicBlock → IrId → IrId
  phiName : IrId → IrId

namespace Trimming

def phi (trim : Trimming) (phi : IrPhiNode) : IrPhiNode :=
  { phi with incoming := phi.incoming.map fun entry => (entry.1, trim.phiName entry.2) }

def block (trim : Trimming) (block : IrBasicBlock) : IrBasicBlock :=
  { block with
    phiNodes := (block.phiNodes.filter trim.keepPhi).map trim.phi
    instructions := (block.instructions.filter trim.keep).map (·.renameUses (trim.name block))
    terminator := block.terminator.renameUses (trim.name block) }

def moves (trim : Trimming) (moves : List (IrPhiNode × IrId)) : List (IrPhiNode × IrId) :=
  (moves.filter fun move => trim.keepPhi move.1).map fun move =>
    (trim.phi move.1, trim.phiName move.2)

/-- The name an instruction reads a register by. Some kinds keep their operands. -/
def operand (trim : Trimming) (block : IrBasicBlock) (inst : IrInstruction) (reg : IrId) : IrId :=
  if inst.operandsKept then reg else trim.name block reg

theorem shortened (trim : Trimming) (block : IrBasicBlock) :
    ShortenedBlock trim.keep (·.renameUses (trim.name block)) block
      { trim.block block with phiNodes := block.phiNodes } :=
  ⟨rfl, IrTerminator.successors_renameUses _ _, rfl⟩

theorem valueFrom_phi (trim : Trimming) (phi : IrPhiNode) (source : IrBlockId) :
    (trim.phi phi).valueFrom source = (phi.valueFrom source).map trim.phiName := by
  simp only [IrPhiNode.valueFrom, Trimming.phi, List.find?_map, Option.map_map]
  rfl

end Trimming

structure Trimmed (function function' : IrFunction) (trim : Trimming) : Prop where
  signature : function'.signature = function.signature
  entry : function'.cfg.entryBlock = function.cfg.entryBlock
  blocks : ∀ id, function'.getBlock id = (function.getBlock id).map trim.block

/-- The register can be read in place of the other: it holds the same word and
is not one of the registers that are lost. -/
def StandsFor (Lost : IrId → Prop) (regs : Regs) (reg' reg : IrId) : Prop :=
  ¬Lost reg' ∧ regs reg' = regs reg

variable {E : Type}

/-- In every state of the run what is dropped does nothing but assign a lost
register, and what stays reads the words and the types it read. -/
structure Harmless (module : IrModule) (host : Host E) (function function' : IrFunction)
    (trim : Trimming) (Lost : IrId → Prop) (frame : Frame) (world : World E) : Prop where
  dropped : ∀ {state block inst}, Runs module host function frame world state →
    function.getBlock state.block = some block → block.instructions[state.pc]? = some inst →
    trim.keep inst = false → ∃ dest word, Lost dest ∧
      execute module host function inst state.frame state.world =
        .ok ({ state.frame with regs := state.frame.regs.set dest word }, state.world)
  operands : ∀ {state block inst}, Runs module host function frame world state →
    function.getBlock state.block = some block → block.instructions[state.pc]? = some inst →
    trim.keep inst = true → ∀ reg ∈ inst.uses,
      StandsFor Lost state.frame.regs (trim.operand block inst reg) reg
  terminator : ∀ {state block}, Runs module host function frame world state →
    function.getBlock state.block = some block → block.instructions.length ≤ state.pc →
    ∀ reg ∈ block.terminator.reads, StandsFor Lost state.frame.regs (trim.name block reg) reg
  phis : ∀ {state block target targetBlock phi value},
    Runs module host function frame world state → function.getBlock state.block = some block →
    block.instructions.length ≤ state.pc → target ∈ block.successors →
    function.getBlock target = some targetBlock → phi ∈ targetBlock.phiNodes →
    trim.keepPhi phi = true → phi.valueFrom state.block = some value →
    StandsFor Lost state.frame.regs (trim.phiName value) value
  droppedPhis : ∀ {state block target targetBlock phi},
    Runs module host function frame world state → function.getBlock state.block = some block →
    block.instructions.length ≤ state.pc → target ∈ block.successors →
    function.getBlock target = some targetBlock → phi ∈ targetBlock.phiNodes →
    trim.keepPhi phi = false → Lost phi.dest ∧ ∃ value, phi.valueFrom state.block = some value ∧
      ∃ word, phiWord phi.ty (state.frame.regs value) = .ok word
  types : ∀ {id block inst}, function.getBlock id = some block → inst ∈ block.instructions →
    trim.keep inst = true →
    declOf function' (inst.renameUses (trim.name block)) = declOf function inst
  returned : ∀ {id block value}, function.getBlock id = some block →
    block.terminator = .ret (some value) → function.signature.usesSret = true →
    (regType function' (trim.name block value) <|> localType function' (trim.name block value)) =
      (regType function value <|> localType function value)

structure Mirrored (module : IrModule) (host : Host E) (function : IrFunction) (trim : Trimming)
    (Lost : IrId → Prop) (frame : Frame) (world : World E) (state state' : State E) : Prop where
  runs : Runs module host function frame world state
  block : state'.block = state.block
  pc : ∀ {block}, function.getBlock state.block = some block →
    state'.pc = shortenedPc trim.keep block state.pc
  world : state'.world = state.world
  frame : state'.frame = { state.frame with regs := state'.frame.regs }
  regs : ∀ reg, ¬Lost reg → state'.frame.regs reg = state.frame.regs reg

section Edges

variable {function function' : IrFunction} {trim : Trimming} {Lost : IrId → Prop}
  {source target : IrBlockId} {regs regs' : Regs}

/-- Both edges fail alike, or both leave the same words in what is not lost. -/
def Alike (Lost : IrId → Prop) : Except Fault Regs → Except Fault Regs → Prop
  | .error fault, taken => taken = .error fault
  | .ok next, taken => ∃ next', taken = .ok next' ∧ ∀ reg, ¬Lost reg → next' reg = next reg

theorem Trimmed.edgeMoves (trimmed : Trimmed function function' trim)
    (incoming : ∀ block, function.getBlock target = some block → ∀ phi ∈ block.phiNodes,
      trim.keepPhi phi = false → ∃ value, phi.valueFrom source = some value) :
    edgeMoves function' source target = (edgeMoves function source target).map trim.moves := by
  unfold Interp.edgeMoves
  rw [trimmed.blocks]
  cases found : function.getBlock target with
  | none => rfl
  | some block =>
      refine mapM_filter_map ?_ ?_
      · intro phi _ keeps
        constructor
        · unfold phiMove
          rw [trim.valueFrom_phi]
          cases phi.valueFrom source <;> rfl
        · intro move moved
          rw [(phiMove_eq_ok.mp moved).2]
          exact keeps
      · intro phi member drops
        obtain ⟨value, taken⟩ := incoming block found phi member drops
        exact ⟨(phi, value), phiMove_eq_ok.mpr ⟨taken, rfl⟩, drops⟩

theorem takeMoves_alike {moves : List (IrPhiNode × IrId)}
    (agree : ∀ reg, ¬Lost reg → regs' reg = regs reg)
    (kept : ∀ move ∈ moves, trim.keepPhi move.1 = true →
      StandsFor Lost regs (trim.phiName move.2) move.2)
    (dropped : ∀ move ∈ moves, trim.keepPhi move.1 = false →
      Lost move.1.dest ∧ ∃ word, phiWord move.1.ty (regs move.2) = .ok word) :
    Alike Lost (takeMoves regs moves) (takeMoves regs' (trim.moves moves)) := by
  let words := fun move : IrPhiNode × IrId => phiWord move.1.ty (regs move.2)
  let words' := fun move : IrPhiNode × IrId => phiWord move.1.ty (regs' move.2)
  -- the words of the moves that stay, and what assigning them all leaves
  have along : (∃ fault, moves.mapM words = .error fault ∧
        (trim.moves moves).mapM words' = .error fault) ∨
      ∃ results results', moves.mapM words = .ok results ∧
        (trim.moves moves).mapM words' = .ok results' ∧ ∀ base base' : Regs,
          (∀ reg, ¬Lost reg → base' reg = base reg) → ∀ reg, ¬Lost reg →
            base'.setAll (((trim.moves moves).map (·.1.dest)).zip results') reg =
              base.setAll ((moves.map (·.1.dest)).zip results) reg := by
    induction moves with
    | nil => exact Or.inr ⟨[], [], rfl, rfl, fun _ _ same => same⟩
    | cons move rest ih =>
        have later := ih (fun other member => kept other (List.mem_cons_of_mem _ member))
          fun other member => dropped other (List.mem_cons_of_mem _ member)
        rw [List.mapM_cons]
        cases keeps : trim.keepPhi move.1 with
        | false =>
            obtain ⟨lost, word, isWord⟩ := dropped move List.mem_cons_self keeps
            have skipped : trim.moves (move :: rest) = trim.moves rest := by
              simp [Trimming.moves, keeps]
            rw [skipped, show words move = .ok word from isWord]
            rcases later with ⟨fault, first, second⟩ | ⟨results, results', first, second, same⟩
            · exact Or.inl ⟨fault, by rw [first]; rfl, second⟩
            · refine Or.inr ⟨word :: results, results', by rw [first]; rfl, second, ?_⟩
              intro base base' agrees
              refine same (base.set move.1.dest word) base' fun reg notLost => ?_
              have other : reg ≠ move.1.dest := fun isDest => notLost (by rwa [isDest])
              rw [base.set_of_ne _ other, agrees reg notLost]
        | true =>
            have stands := kept move List.mem_cons_self keeps
            have isFirst : trim.moves (move :: rest) =
                (trim.phi move.1, trim.phiName move.2) :: trim.moves rest := by
              simp [Trimming.moves, keeps]
            have sameWord : words' (trim.phi move.1, trim.phiName move.2) = words move := by
              change phiWord move.1.ty _ = phiWord move.1.ty _
              rw [agree _ stands.1, stands.2]
            rw [isFirst, List.mapM_cons, sameWord]
            cases words move with
            | error fault => exact Or.inl ⟨fault, rfl, rfl⟩
            | ok word =>
                rcases later with ⟨fault, first, second⟩ | ⟨results, results', first, second, same⟩
                · exact Or.inl ⟨fault, by rw [first]; rfl, by rw [second]; rfl⟩
                · refine Or.inr ⟨word :: results, word :: results', by rw [first]; rfl,
                    by rw [second]; rfl, fun base base' agrees => ?_⟩
                  refine same (base.set move.1.dest word) (base'.set move.1.dest word) ?_
                  intro reg notLost
                  simp only [Regs.set, agrees reg notLost]
  change Alike Lost (moves.mapM words >>= _) ((trim.moves moves).mapM words' >>= _)
  rcases along with ⟨fault, first, second⟩ | ⟨results, results', first, second, same⟩
  · rw [first, second]
    rfl
  · rw [first, second]
    exact ⟨_, rfl, same regs regs' agree⟩

end Edges

section Steps

variable {module : IrModule} {host : Host E} {function function' : IrFunction} {trim : Trimming}
  {Lost : IrId → Prop} {frame : Frame} {world : World E} {state state' : State E}
  {block : IrBasicBlock} {inst : IrInstruction}

theorem Mirrored.word (mirrored : Mirrored module host function trim Lost frame world state state')
    {reg' reg : IrId} (stands : StandsFor Lost state.frame.regs reg' reg) :
    state'.frame.regs reg' = state.frame.regs reg :=
  (mirrored.regs reg' stands.1).trans stands.2

variable (trimmed : Trimmed function function' trim)
  (harmless : Harmless module host function function' trim Lost frame world)
  (mirrored : Mirrored module host function trim Lost frame world state state')
  (found : function.getBlock state.block = some block)
include harmless mirrored found

theorem Harmless.evaluated (here : block.instructions[state.pc]? = some inst)
    (keeps : trim.keep inst = true) :
    eval module host (declOf function' (inst.renameUses (trim.name block)))
        (state'.frame.site (inst.renameUses (trim.name block))) state'.frame.regs
        (inst.renameUses (trim.name block)) state'.world =
      eval module host (declOf function inst) (state.frame.site inst) state.frame.regs inst
        state.world := by
  rw [harmless.types found (List.mem_of_getElem? here) keeps, mirrored.world]
  have words : ∀ reg ∈ inst.uses,
      state'.frame.regs (trim.operand block inst reg) = state.frame.regs reg :=
    fun reg used => mirrored.word (harmless.operands mirrored.runs found here keeps reg used)
  have agrees : SiteAgrees inst (state'.frame.site (inst.renameUses (trim.name block)))
      (state.frame.site inst) := by
    rw [mirrored.frame]
    refine ⟨fun ordinary => ?_, fun _ _ _ => rfl, ?_⟩
    · simp only [Frame.site, IrInstruction.dest_renameUses _ inst ordinary]
    · cases inst <;> rfl
  cases kept : inst.operandsKept with
  | true =>
      rw [IrInstruction.uses_renameUses_of_kept _ inst kept] at agrees ⊢
      rw [eval_site agrees]
      refine eval_congr (fun reg used => ?_) _
      have word := words reg used
      rwa [Trimming.operand, if_pos kept] at word
  | false =>
      rw [eval_renameUses _ _ kept, eval_site agrees]
      refine eval_congr (fun reg used => ?_) _
      have word := words reg used
      rwa [Trimming.operand, if_neg (by simp [kept])] at word

include trimmed

theorem Harmless.transferred (done : block.instructions.length ≤ state.pc) {target : IrBlockId}
    (successor : target ∈ block.successors) :
    Alike Lost (transfer function state.block block.terminator target state.frame.regs)
      (transfer function' state.block (trim.block block).terminator target state'.frame.regs) := by
  have decodes : ∀ other ∈ block.successors, edgeMoves function' state.block other =
      (edgeMoves function state.block other).map trim.moves := by
    intro other isSuccessor
    refine trimmed.edgeMoves fun otherBlock foundOther phi member drops => ?_
    obtain ⟨-, value, taken, -⟩ := harmless.droppedPhis mirrored.runs found done isSuccessor
      foundOther member drops
    exact ⟨value, taken⟩
  have decoded : (trim.block block).terminator.successors.mapM (edgeMoves function' state.block) =
      (block.terminator.successors.mapM (edgeMoves function state.block)).map
        (·.map trim.moves) := by
    rw [show (trim.block block).terminator.successors = block.successors from
      IrTerminator.successors_renameUses _ _]
    exact mapM_map_outputs decodes
  unfold transfer
  rw [decoded, decodes target successor]
  cases block.terminator.successors.mapM (edgeMoves function state.block) with
  | error fault => rfl
  | ok all =>
      cases taken : edgeMoves function state.block target with
      | error fault => rfl
      | ok moves =>
          obtain ⟨targetBlock, foundTarget, listed⟩ := edgeMoves_eq_ok.mp taken
          have ofPhi : ∀ move ∈ moves, move.1 ∈ targetBlock.phiNodes ∧
              move.1.valueFrom state.block = some move.2 := by
            intro move member
            obtain ⟨index, inside, rfl⟩ := List.mem_iff_getElem.mp member
            have inPhis : index < targetBlock.phiNodes.length := listed.length_eq ▸ inside
            obtain ⟨value, isPhi⟩ := listed.get inPhis inside
            simp only [List.get_eq_getElem] at value isPhi
            rw [isPhi]
            exact ⟨List.getElem_mem inPhis, value⟩
          refine takeMoves_alike mirrored.regs (fun move member keeps => ?_) ?_
          · exact harmless.phis mirrored.runs found done successor foundTarget
              (ofPhi move member).1 keeps (ofPhi move member).2
          · intro move member drops
            obtain ⟨isPhi, value⟩ := ofPhi move member
            obtain ⟨lost, _, taken, word⟩ := harmless.droppedPhis mirrored.runs found done successor
              foundTarget isPhi drops
            cases taken.symm.trans value
            exact ⟨lost, word⟩

theorem Harmless.stepped_kept (here : block.instructions[state.pc]? = some inst)
    (keeps : trim.keep inst = true) {next : Frame} {world' : World E}
    (ran : execute module host function inst state.frame state.world = .ok (next, world')) :
    ∃ right, Stepped module host function' state' right ∧
      Mirrored module host function trim Lost frame world
        { state with pc := state.pc + 1, frame := next, world := world' } right := by
  obtain ⟨result, evaluated, rfl⟩ := execute_eq_ok.mp ran
  have same := harmless.evaluated mirrored found here keeps
  rw [evaluated] at same
  have found' : function'.getBlock state'.block = some (trim.block block) := by
    rw [trimmed.blocks, mirrored.block, found]
    rfl
  have here' : (trim.block block).instructions[state'.pc]? =
      some (inst.renameUses (trim.name block)) := by
    rw [mirrored.pc found]
    exact (trim.shortened block).at here keeps
  refine ⟨_, .executed found' here' (execute_eq_ok.mpr ⟨result, same, rfl⟩), ?_⟩
  have writes := IrInstruction.writes_renameUses (trim.name block) inst
  refine ⟨mirrored.runs.next (.executed found here ran), mirrored.block, ?_, rfl, ?_, ?_⟩
  · intro other foundOther
    cases found.symm.trans foundOther
    rw [shortenedPc_succ _ here, keeps, if_pos rfl]
    exact congrArg (· + 1) (mirrored.pc found)
  · have marks : (state'.frame.after (inst.renameUses (trim.name block)) result).moved =
        (state.frame.after inst result).moved := by
      rw [mirrored.frame]
      cases inst <;> rfl
    rw [mirrored.frame] at marks ⊢
    simp only [Frame.after] at marks ⊢
    rw [marks]
  · intro reg notLost
    simp only [Frame.after, writes]
    cases inst.writes with
    | none => exact mirrored.regs reg notLost
    | some dest =>
        cases result with
        | none => exact mirrored.regs reg notLost
        | some word => simp only [Regs.set, mirrored.regs reg notLost]

theorem Harmless.stopped (done : block.instructions.length ≤ state.pc)
    (stops : chosenTarget state.frame.regs block.terminator = none) :
    terminate function' state.block (trim.block block).terminator state'.frame state'.world =
      terminate function state.block block.terminator state.frame state.world := by
  rw [mirrored.world]
  cases isTerm : block.terminator with
  | ret value =>
      simp only [Trimming.block, isTerm, IrTerminator.renameUses, terminate]
      cases value with
      | none => simp only [returnFrom, Option.map_none, trimmed.signature]
      | some value =>
          have word := mirrored.word (harmless.terminator mirrored.runs found done value
            (by rw [isTerm]; exact List.mem_singleton_self value))
          have sret : state'.frame.sret = state.frame.sret := by rw [mirrored.frame]
          simp only [returnFrom, Option.map_some, trimmed.signature, word, sret]
          cases usesSret : function.signature.usesSret with
          | false => rfl
          | true => rw [harmless.returned found isTerm usesSret]
  | unreachable => simp only [Trimming.block, isTerm, IrTerminator.renameUses, terminate]
  | noReturn _ => simp only [Trimming.block, isTerm, IrTerminator.renameUses, terminate]
  | branch _ => simp [isTerm, chosenTarget] at stops
  | condBranch _ _ _ => simp [isTerm, chosenTarget] at stops
  | switch _ _ _ => simp [isTerm, chosenTarget] at stops

theorem Harmless.atEnd (done : block.instructions.length ≤ state.pc) :
    function'.getBlock state'.block = some (trim.block block) ∧
      (trim.block block).instructions.length ≤ state'.pc ∧
      chosenTarget state'.frame.regs (trim.block block).terminator =
        chosenTarget state.frame.regs block.terminator := by
  refine ⟨?_, ?_, ?_⟩
  · rw [trimmed.blocks, mirrored.block, found]
    rfl
  · rw [mirrored.pc found]
    exact (trim.shortened block).length.le.trans (shortenedPc_mono _ _ done)
  · exact chosenTarget_renameUses fun reg read =>
      mirrored.word (harmless.terminator mirrored.runs found done reg read)

end Steps

section Runs

variable {module : IrModule} {host : Host E} {function function' : IrFunction} {trim : Trimming}
  {Lost : IrId → Prop} {frame : Frame} {world : World E}

def instructionsLeft (function : IrFunction) (state : State E) : Nat :=
  ((function.getBlock state.block).map (·.instructions.length)).getD 0 - state.pc

theorem Harmless.simulates (trimmed : Trimmed function function' trim)
    (harmless : Harmless module host function function' trim Lost frame world) :
    Machine.Simulates (machine module host function) (machine module host function')
      (Mirrored module host function trim Lost frame world) (instructionsLeft function) where
  observed := fun mirrored => congrArg World.trace mirrored.world.symm
  next := by
    intro state next state' mirrored stepped
    cases step_eq_inl.mp stepped with
    | @executed block inst _ _ found here ran =>
        cases keeps : trim.keep inst with
        | true =>
            obtain ⟨right, moved, related⟩ :=
              harmless.stepped_kept trimmed mirrored found here keeps ran
            have once : (machine module host function').run 1 state' = .inl right :=
              Machine.run_succ_of_next 0 (step_eq_inl.mpr moved)
            exact ⟨1, right, once, related, fun impossible => absurd impossible (by decide)⟩
        | false =>
            -- the trimmed function waits where it is
            obtain ⟨dest, word, lost, does⟩ := harmless.dropped mirrored.runs found here keeps
            cases ran.symm.trans does
            have inside := (List.getElem?_eq_some_iff.mp here).1
            refine ⟨0, state', rfl, ⟨mirrored.runs.next (.executed found here ran), mirrored.block,
              ?_, mirrored.world, mirrored.frame, ?_⟩, fun _ => ?_⟩
            · intro other foundOther
              cases found.symm.trans foundOther
              rw [shortenedPc_succ _ here, keeps]
              exact mirrored.pc found
            · intro reg notLost
              have other : reg ≠ dest := fun isDest => notLost (by rwa [isDest])
              exact (mirrored.regs reg notLost).trans (Regs.set_of_ne _ _ other).symm
            · simp only [instructionsLeft, found, Option.map_some, Option.getD_some]
              omega
    | @moved block target regs found done chosen transferred =>
        obtain ⟨found', done', sameChoice⟩ := harmless.atEnd trimmed mirrored found done
        have alike := harmless.transferred trimmed mirrored found done (chosenTarget_mem chosen)
        rw [transferred] at alike
        obtain ⟨regs', transferred', agree⟩ := alike
        rw [← mirrored.block] at transferred'
        have moved : Stepped module host function' state' _ :=
          .moved found' done' (sameChoice.trans chosen) transferred'
        have once : (machine module host function').run 1 state' = .inl _ :=
          Machine.run_succ_of_next 0 (step_eq_inl.mpr moved)
        refine ⟨1, _, once, ⟨mirrored.runs.next (.moved found done chosen transferred), rfl,
          fun _ => rfl, mirrored.world, ?_, agree⟩, fun impossible => absurd impossible (by decide)⟩
        rw [mirrored.frame]
  outcome := by
    intro state state' outcome mirrored stepped
    refine ⟨1, Machine.run_succ_of_outcome 0 ?_⟩
    change step module host function state = .inr outcome at stepped
    change step module host function' state' = .inr outcome
    unfold step at stepped ⊢
    cases found : function.getBlock state.block with
    | none =>
        rw [found] at stepped
        rw [trimmed.blocks, mirrored.block, found, mirrored.world]
        exact stepped
    | some block =>
        simp only [found] at stepped
        cases here : block.instructions[state.pc]? with
        | some inst =>
            simp only [here] at stepped
            cases keeps : trim.keep inst with
            | true =>
                have here' := (trim.shortened block).at here keeps
                rw [← mirrored.pc found] at here'
                have found' : function'.getBlock state'.block = some (trim.block block) := by
                  rw [trimmed.blocks, mirrored.block, found]
                  rfl
                have same := harmless.evaluated mirrored found here keeps
                simp only [found', show (trim.block block).instructions[state'.pc]? = _ from here']
                unfold execute at stepped ⊢
                rw [same]
                cases evaluated : eval module host (declOf function inst) (state.frame.site inst)
                    state.frame.regs inst state.world with
                | error stop =>
                    rw [evaluated] at stepped
                    exact stepped
                | ok result =>
                    rw [evaluated] at stepped
                    cases stepped
            | false =>
                obtain ⟨_, _, _, does⟩ := harmless.dropped mirrored.runs found here keeps
                rw [does] at stepped
                cases stepped
        | none =>
            simp only [here] at stepped
            have done := List.getElem?_eq_none_iff.mp here
            obtain ⟨found', done', sameChoice⟩ := harmless.atEnd trimmed mirrored found done
            simp only [found', List.getElem?_eq_none_iff.mpr done']
            rw [mirrored.block]
            cases chosen : chosenTarget state.frame.regs block.terminator with
            | none =>
                rw [harmless.stopped trimmed mirrored found done chosen]
                exact stepped
            | some target =>
                have alike :=
                  harmless.transferred trimmed mirrored found done (chosenTarget_mem chosen)
                rw [terminate_of_chosen chosen] at stepped
                rw [terminate_of_chosen (sameChoice.trans chosen)]
                cases transferred : transfer function state.block block.terminator target
                    state.frame.regs with
                | error fault =>
                    rw [transferred] at alike stepped
                    rw [show transfer function' state.block _ target _ = _ from alike,
                      mirrored.world]
                    exact stepped
                | ok regs =>
                    rw [transferred] at stepped
                    cases stepped

/-- Every call of the second function behaves as the same call of the first. -/
def Preserves (module : IrModule) (host : Host E) (function function' : IrFunction) : Prop :=
  ∀ frame world, Machine.SameBehaviour (machine module host function)
    (machine module host function') (entryState function frame world)
    (entryState function' frame world)

theorem Preserves.of_harmless (Lost : IrId → Prop) (trimmed : Trimmed function function' trim)
    (harmless : ∀ frame world,
      Harmless module host function function' trim Lost frame (world : World E)) :
    Preserves module host function function' := by
  intro frame world
  refine (harmless frame world).simulates trimmed |>.sameBehaviour ⟨.refl _, ?_, ?_, rfl, rfl, ?_⟩
  · exact trimmed.entry
  · intro block _
    rfl
  · exact fun _ _ => rfl

theorem Preserves.of_steps (entry : function'.cfg.entryBlock = function.cfg.entryBlock)
    (same : ∀ {frame world} {state : State E}, Runs module host function frame world state →
      step module host function' state = step module host function state) :
    Preserves module host function function' := by
  intro frame world
  have simulates : Machine.Simulates (machine module host function) (machine module host function')
      (fun left right => right = left ∧ Runs module host function frame world left)
      (fun _ => 0) := by
    constructor
    · rintro left _ ⟨rfl, -⟩
      rfl
    · rintro left next _ ⟨rfl, runs⟩ stepped
      exact ⟨1, next, Machine.run_succ_of_next 0 ((same runs).trans stepped),
        ⟨rfl, runs.next (step_eq_inl.mp stepped)⟩, fun impossible => absurd impossible (by decide)⟩
    · rintro left _ outcome ⟨rfl, runs⟩ stepped
      exact ⟨1, Machine.run_succ_of_outcome 0 ((same runs).trans stepped)⟩
  refine simulates.sameBehaviour ⟨?_, .refl _⟩
  rw [entryState, entryState, entry]

end Runs

end Rayzor.Ssa
