import Rayzor.Interp.Locality
import Rayzor.Osr.Edges

/-!
Contract: a variant goes on where the function stands.
-/

namespace Rayzor.Osr

open Ir Library Library.Graph Analysis Interp Ssa

variable {E : Type}

def InRegion (function : IrFunction) (header : IrBlockId) (inst : IrInstruction) : Prop :=
  ∃ id ∈ blocksReachableFrom function header, ∃ block,
    function.getBlock id = some block ∧ inst ∈ block.instructions

/-- A variant starts with no environment and no value marked as moved, and what
it merges at the header has the machine type of a phi. -/
structure Resumable (module : IrModule) (host : Host E) (function : IrFunction)
    (header : IrBlockId) (relaxed : Bool) (state : State E) : Prop where
  environment : ∀ {dest closure}, InRegion function header (.closureEnv dest closure) →
    state.frame.env = 0
  unmoved : ∀ {src line}, InRegion function header (.checkLive src line) →
    state.frame.moved src = false
  words : ∀ {next}, (machine module host function).Reaches state next →
    pointOf next = (header, 0) → ∀ {reg ty block}, HandedOver function header relaxed reg →
    (definitionBlocks function).get? reg = some block →
    block ∈ blocksReachableFrom function header → regType function reg = some ty →
    (next.frame.regs reg).mt = Mt.phi ty

theorem phiWord_of_mt {ty : IrType} {word : Word} (same : word.mt = Mt.phi ty) :
    phiWord ty word = .ok word := by
  obtain ⟨mt, bits⟩ := word
  obtain rfl : mt = Mt.phi ty := same
  unfold phiWord phiCoercion
  rw [if_pos rfl]
  rfl

/-- Where a definition has been made since the header, it has been made in the
blocks that follow too. -/
theorem unmerged_step {entered : IrFunction} {header block source target : IrBlockId}
    (made : source = block ∨ source ∈ unmerged entered header block)
    (edge : BlockEdge entered source target) (inner : target ≠ header) :
    target ∈ unmerged entered header block := by
  have keeps : (target != header) = true := bne_iff_ne.mpr inner
  unfold unmerged at made ⊢
  rw [mem_found_forward] at made ⊢
  rcases made with rfl | ⟨root, isRoot, path⟩
  · exact ⟨target, List.mem_filter.mpr ⟨mem_successorsOf.mpr edge, keeps⟩, .refl⟩
  · exact ⟨root, isRoot, path.tail ⟨edge, keeps⟩⟩

section Resuming

variable {module : IrModule} {host : Host E} {function variant : IrFunction}
  {header : IrBlockId} {relaxed : Bool} {result : OsrLayout} {headerBlock : IrBasicBlock}
  {lives : List OsrSlot}

/-- The state of the variant that stands for one of the function: control is in
the same place, and so is every register that the variant has written. -/
structure Resumed (module : IrModule) (host : Host E) (function variant : IrFunction)
    (result : OsrLayout) (origin state state' : State E) : Prop where
  after : (machine module host function).Reaches origin state
  block : state'.block = state.block
  pc : state'.pc = state.pc
  world : state'.world = state.world
  slots : state'.frame.slots = state.frame.slots
  environment : ∀ {dest closure}, InRegion function result.header (.closureEnv dest closure) →
    state'.frame.env = state.frame.env
  unmoved : ∀ {src line}, InRegion function result.header (.checkLive src line) →
    state'.frame.moved src = state.frame.moved src
  inside : state.block ∈ blocksReachableFrom function result.header
  within : ∀ {block}, function.getBlock state.block = some block →
    state.pc ≤ block.instructions.length
  own : ∀ {reg}, reg < function.nextRegId → Available variant reg (pointOf state) →
    state'.frame.regs reg = state.frame.regs reg
  merged : ∀ {value}, value ∈ redefinedOf function result →
    state.block ∉ unmerged (enteredVariant function result) result.header value.block →
    state.block ≠ value.block → state'.frame.regs value.phi = state.frame.regs value.reg

theorem Resumed.at_end {origin state state' : State E}
    (resumed : Resumed module host function variant result origin state state')
    {block : IrBasicBlock} (found : function.getBlock state.block = some block)
    (done : block.instructions.length ≤ state.pc) :
    pointOf state = (state.block, block.instructions.length) :=
  Prod.ext rfl (le_antisymm (resumed.within found) done)

variable (resumption : Resumption function header relaxed result headerBlock lives variant)
  (records : RecordsHold function header relaxed) (reachable : BlockReachable function header)
include resumption

/-- A carried value is a slot's, with the type on record. -/
theorem Resumption.redefined_typed (types : TypesHold function header relaxed) {value : Redefined}
    (member : value ∈ redefinedOf function result) :
    HandedOver function header relaxed value.reg ∧
      (definitionBlocks function).get? value.reg = some value.block ∧
      value.block ∈ blocksReachableFrom function header ∧
      regType function value.reg = some value.ty := by
  obtain ⟨load, inLoads, isLive, recorded, -, ty, -⟩ := redefined_spec member
  have isSlot := resumption.accepted.load_slot inLoads
  obtain ⟨isRecorded, within⟩ := Option.filter_eq_some_iff.mp recorded
  refine ⟨(resumption.live_handedOver isSlot isLive).1, isRecorded, ?_, ?_⟩
  · rw [← resumption.accepted.isHeader]
    simpa using within
  · rw [ty]
    exact resumption.slot_type types isSlot isLive

theorem Resumption.target_blocks {source target : IrBlockId}
    (inside : source ∈ blocksReachableFrom function result.header)
    (edge : BlockEdge function source target) : ∃ targetBlock targetBlock',
      function.getBlock target = some targetBlock ∧ variant.getBlock target = some targetBlock' ∧
        RegionBlock function result target targetBlock targetBlock' := by
  obtain ⟨targetBlock, isTarget⟩ := exists_block (resumption.successor_mem inside edge)
  obtain ⟨targetBlock', inVariant, region⟩ :=
    resumption.getBlock_region (resumption.successor_mem inside edge) isTarget
  exact ⟨targetBlock, targetBlock', isTarget, inVariant, region⟩

include records reachable

theorem Resumption.renamed_word {origin state state' : State E}
    (resumed : Resumed module host function variant result origin state state') {reg : IrId}
    (used : (reg, state.block) ∈ regionUses function (blocksReachableFrom function header))
    {block : IrBasicBlock} (found : function.getBlock state.block = some block)
    (own : reg < function.nextRegId) (available : Available function reg (pointOf state))
    (reached : ∀ value ∈ redefinedOf function result, value.reg = reg →
      ((carrierOf function result).reaching value state.block).isSome) :
    state'.frame.regs ((carrierOf function result).rename (redefinedOf function result)
      state.block reg) = state.frame.regs reg := by
  have isAvailable := resumption.available_renamed records reachable used resumed.inside found
    (resumed.within found) available reached
  by_cases named : reg ∈ (redefinedOf function result).map (·.reg)
  · obtain ⟨value, member, rfl⟩ := List.mem_map.mp named
    obtain ⟨name, reaches⟩ := Option.isSome_iff_exists.mp (reached value member rfl)
    rw [rename_of_mem resumption.apart member, reaches, Option.getD_some] at isAvailable ⊢
    unfold Carrier.reaching at reaches
    split_ifs at reaches with dominates away
    · cases reaches
      exact resumed.own own isAvailable
    · cases reaches
      refine resumed.merged member ?_ ?_
      · simpa [carrierOf] using away
      · intro same
        refine dominates ?_
        rw [same, DominatorTree.dominates, beq_self_eq_true]
        rfl
  · rw [rename_of_notMem named] at isAvailable ⊢
    exact resumed.own own isAvailable

section Instruction

variable (types : TypesHold function header relaxed) {origin state state' : State E}
  (resumed : Resumed module host function variant result origin state state')
  {block : IrBasicBlock} {inst : IrInstruction}
  (found : function.getBlock state.block = some block)
  (here : block.instructions[state.pc]? = some inst)
include resumed found here

theorem Resumption.operand_word {block' : IrBasicBlock}
    (region : RegionBlock function result state.block block block') {reg : IrId}
    (used : reg ∈ inst.uses) :
    state'.frame.regs ((carrierOf function result).rename (redefinedOf function result)
      state.block reg) = state.frame.regs reg := by
  have isRead : reads block reg = true :=
    reads_iff.mpr (Or.inl ⟨inst, List.mem_of_getElem? here, used⟩)
  refine resumption.renamed_word records reachable resumed ?_ found
    (resumption.numbered.registers found _ (mentioned_of_reads isRead))
    (resumption.ssa.operands found here reg used) ?_
  · have inside := resumed.inside
    rw [resumption.accepted.isHeader] at inside
    exact mem_regionUses.mpr
      ⟨_, inside, block, found, mem_blockUses.mpr (Or.inr ⟨rfl, isRead⟩)⟩
  · rintro value inAll rfl
    exact region.reached value inAll isRead

include types

/-- An instruction of the region does in the variant what it does in the
function. -/
theorem Resumption.eval_variant {block' : IrBasicBlock}
    (region : RegionBlock function result state.block block block') :
    eval module host
        (declOf variant (inst.renameUses ((carrierOf function result).rename
          (redefinedOf function result) state.block)))
        (state'.frame.site (inst.renameUses ((carrierOf function result).rename
          (redefinedOf function result) state.block))) state'.frame.regs
        (inst.renameUses ((carrierOf function result).rename (redefinedOf function result)
          state.block)) state'.world =
      eval module host (declOf function inst) (state.frame.site inst) state.frame.regs inst
        state.world := by
  have words : ∀ reg ∈ inst.uses, state'.frame.regs ((carrierOf function result).rename
      (redefinedOf function result) state.block reg) = state.frame.regs reg :=
    fun reg => resumption.operand_word records reachable resumed found here region
  have inBlock := List.mem_of_getElem? here
  have inRegion : InRegion function result.header inst :=
    ⟨state.block, resumed.inside, block, found, inBlock⟩
  rw [resumption.declOf_variant records reachable resumed.inside found here types, resumed.world]
  have keeps := region.kept inst inBlock
  generalize (carrierOf function result).rename (redefinedOf function result) state.block = rename
    at words keeps ⊢
  have agrees : SiteAgrees inst (state'.frame.site (inst.renameUses rename))
      (state.frame.site inst) := by
    refine ⟨fun ordinary => ?_, ?_, ?_⟩
    · simp only [Frame.site, IrInstruction.dest_renameUses rename inst ordinary, resumed.slots]
    · rintro dest closure rfl
      exact resumed.environment inRegion
    · cases inst
      case checkLive src line => exact resumed.unmoved inRegion
      all_goals rfl
  cases kept : inst.operandsKept with
  | true =>
      have unchanged := IrInstruction.uses_renameUses_of_kept rename inst kept
      rw [unchanged] at agrees ⊢
      rw [eval_site agrees]
      refine eval_congr (fun reg used => ?_) _
      have word := words reg used
      rwa [keeps kept reg used] at word
  | false =>
      rw [eval_renameUses rename _ kept, eval_site agrees]
      exact eval_congr words _

theorem Resumption.executed_variant {block' : IrBasicBlock}
    (inVariant : variant.getBlock state.block = some block')
    (region : RegionBlock function result state.block block block') {frame : Frame}
    {world : World E}
    (ran : execute module host function inst state.frame state.world = .ok (frame, world)) :
    ∃ next', Stepped module host variant state' next' ∧
      Resumed module host function variant result origin
        { state with pc := state.pc + 1, frame, world } next' := by
  obtain ⟨value, evaluated, rfl⟩ := execute_eq_ok.mp ran
  have same := resumption.eval_variant records reachable types resumed found here region
  rw [evaluated] at same
  have here' : block'.instructions[state'.pc]? = some (inst.renameUses
      ((carrierOf function result).rename (redefinedOf function result) state.block)) := by
    rw [region.instructions, resumed.pc, List.getElem?_map, here]
    rfl
  have ran' := execute_eq_ok.mpr ⟨value, same, rfl⟩
  have writes := IrInstruction.writes_renameUses ((carrierOf function result).rename
    (redefinedOf function result) state.block) inst
  have step : Stepped module host function state
      { state with pc := state.pc + 1, frame := state.frame.after inst value, world } :=
    .executed found here ran
  refine ⟨_, .executed (by rw [resumed.block]; exact inVariant) here' ran', ?_⟩
  generalize (carrierOf function result).rename (redefinedOf function result) state.block = rename
    at writes here' ⊢
  have assigned : ∀ reg, inst.writes = some reg →
      (state'.frame.after (inst.renameUses rename) value).regs reg =
        (state.frame.after inst value).regs reg := by
    intro reg isDest
    obtain ⟨word, rfl⟩ := Option.isSome_iff_exists.mp (eval_assigns evaluated isDest)
    rw [regs_after_some _ _ isDest, regs_after_some _ _ (writes.trans isDest), Regs.set_same,
      Regs.set_same]
  have kept : ∀ reg reg', inst.writes ≠ some reg → inst.writes ≠ some reg' →
      state'.frame.regs reg' = state.frame.regs reg →
      (state'.frame.after (inst.renameUses rename) value).regs reg' =
        (state.frame.after inst value).regs reg := by
    intro reg reg' other other' before
    rw [regs_after_of_ne other, regs_after_of_ne (writes.symm ▸ other')]
    exact before
  refine ⟨resumed.after.trans (.of_step (step_eq_inl.mpr step)), resumed.block, ?_, rfl,
    resumed.slots, resumed.environment, ?_, resumed.inside, ?_, ?_, ?_⟩
  · exact congrArg (· + 1) resumed.pc
  · intro src line checked
    have before := resumed.unmoved checked
    cases inst
    case markMoved moved =>
      change (if src = moved then true else state'.frame.moved src) =
        if src = moved then true else state.frame.moved src
      rw [before]
    all_goals exact before
  · intro other isOther
    cases found.symm.trans isOther
    exact (List.getElem?_eq_some_iff.mp here).1
  · intro reg small available
    by_cases isDest : inst.writes = some reg
    · exact assigned reg isDest
    · refine kept reg reg isDest isDest (resumed.own small ?_)
      have inside := (List.getElem?_eq_some_iff.mp here').1
      rw [resumed.pc] at inside
      refine available.before (.within inVariant inside) ?_
      intro defines
      generalize isPoint : pointOf { state with
        pc := state.pc + 1, frame := state.frame.after inst value, world } = point at defines
      cases defines with
      | parameter =>
          injection isPoint with _ isZero
          exact absurd isZero (Nat.succ_ne_zero _)
      | phi =>
          injection isPoint with _ isZero
          exact absurd isZero (Nat.succ_ne_zero _)
      | instruction foundOther hereOther isWritten =>
          injection isPoint with isBlock isNext
          injection isNext with isNext
          subst isBlock isNext
          cases inVariant.symm.trans foundOther
          rw [resumed.pc] at here'
          cases here'.symm.trans hereOther
          exact isDest (writes.symm.trans isWritten)
  · intro value' member away notThere
    refine kept value'.reg value'.phi ?_ ?_ (resumed.merged member away notThere)
    · intro isDest
      obtain ⟨-, written⟩ := resumption.redefined_written records member
      refine notThere (resumption.written_unique ⟨block, found, ?_⟩ written)
      exact List.mem_append_right _
        (List.mem_filterMap.mpr ⟨inst, List.mem_of_getElem? here, isDest⟩)
    · intro isDest
      exact phi_ne_own member (resumption.numbered.registers found _
        (mentioned_of_writes (List.mem_of_getElem? here) isDest)) rfl

end Instruction

section Crossing

variable {origin state state' : State E}
  (resumed : Resumed module host function variant result origin state state')
  {block : IrBasicBlock} (found : function.getBlock state.block = some block)
  (done : block.instructions.length ≤ state.pc)
include resumed found done

/-- What an edge of the region moves into a phi is in the register it is read
from. -/
theorem Resumption.phi_operand_word {target : IrBlockId} {targetBlock : IrBasicBlock}
    (edge : BlockEdge function state.block target)
    (isTarget : function.getBlock target = some targetBlock) {phi : IrPhiNode}
    (member : phi ∈ targetBlock.phiNodes) {value : IrId}
    (isValue : phi.valueFrom state.block = some value) :
    state'.frame.regs ((carrierOf function result).rename (redefinedOf function result)
      state.block value) = state.frame.regs value := by
  have listed : (state.block, value) ∈ phi.incoming := by
    obtain ⟨entry, first, rfl⟩ := Option.map_eq_some_iff.mp isValue
    have same : entry.1 = state.block := beq_iff_eq.mp (List.find?_some first :)
    rw [← same]
    exact List.mem_of_find?_eq_some first
  have targetInside := resumption.successor_mem resumed.inside edge
  obtain ⟨_, -, region⟩ := resumption.getBlock_region targetInside isTarget
  refine resumption.renamed_word records reachable resumed ?_ found
    (resumption.numbered.registers isTarget _ (mentioned_of_incoming member listed)) ?_ ?_
  · have inside := resumed.inside
    rw [resumption.accepted.isHeader] at targetInside inside
    exact mem_regionUses.mpr ⟨target, targetInside, targetBlock, isTarget,
      mem_blockUses.mpr (Or.inl ⟨phi, member, listed, inside⟩)⟩
  · rw [resumed.at_end found done]
    exact resumption.ssa.phis isTarget member listed found
  · intro other inAll same
    exact region.phisReached phi member _ listed resumed.inside other inAll same

omit reachable in
/-- What an edge back to the header moves into a merging phi. -/
theorem Resumption.merged_word (edge : BlockEdge function state.block result.header)
    {value : Redefined} (member : value ∈ redefinedOf function result) :
    state'.frame.regs (((carrierOf function result).reaching value state.block).getD value.reg) =
      state.frame.regs value.reg := by
  have isPred := resumption.mem_headerPreds resumed.inside edge
  obtain ⟨name, reaches⟩ :=
    Option.isSome_iff_exists.mp (resumption.carried.merges value member _ isPred)
  have inner : state.block ≠ osrEntryId function :=
    fun same => resumption.entry_notMem (same ▸ resumed.inside)
  have isAvailable : Available variant name (pointOf state) := by
    rw [resumed.at_end found done]
    exact resumption.reaching_available records member inner reaches
      fun first _ defines => definition_inside found defines
  rw [reaches, Option.getD_some]
  unfold Carrier.reaching at reaches
  split_ifs at reaches with dominates away
  · cases reaches
    obtain ⟨-, written⟩ := resumption.redefined_written records member
    obtain ⟨other, isOther, inOther⟩ := written
    refine resumed.own (resumption.numbered.registers isOther _ ?_) isAvailable
    exact List.mem_append_left _ (List.mem_append_left _ inOther)
  · cases reaches
    refine resumed.merged member ?_ ?_
    · simpa [carrierOf] using away
    · intro same
      refine dominates ?_
      rw [same, DominatorTree.dominates, beq_self_eq_true]
      rfl

theorem Resumption.terminator_word {block' : IrBasicBlock}
    (region : RegionBlock function result state.block block block') {reg : IrId}
    (used : reg ∈ block.terminator.reads) :
    state'.frame.regs ((carrierOf function result).rename (redefinedOf function result)
      state.block reg) = state.frame.regs reg := by
  have isRead : reads block reg = true := reads_iff.mpr (Or.inr (mem_terminatorUses used))
  refine resumption.renamed_word records reachable resumed ?_ found
    (resumption.numbered.registers found _ (mentioned_of_reads isRead)) ?_ ?_
  · have inside := resumed.inside
    rw [resumption.accepted.isHeader] at inside
    exact mem_regionUses.mpr
      ⟨_, inside, block, found, mem_blockUses.mpr (Or.inr ⟨rfl, isRead⟩)⟩
  · rw [resumed.at_end found done]
    exact resumption.ssa.terminator found reg used
  · rintro value inAll rfl
    exact region.reached value inAll isRead

omit records reachable found done in
/-- A return hands back the same bits. -/
theorem Resumption.returnFrom_variant {rename : IrId → IrId} {value : Option IrId}
    (agree : ∀ reg ∈ value, state'.frame.regs (rename reg) = state.frame.regs reg) :
    returnFrom variant (value.map rename) state'.frame state'.world =
      returnFrom function value state.frame state.world := by
  have noBuffer : function.signature.usesSret = false := resumption.accepted.noBuffer
  have noBuffer' : variant.signature.usesSret = false := by
    rw [resumption.carried.rest]
    exact noBuffer
  have sameType : variant.signature.returnType = function.signature.returnType := by
    rw [resumption.carried.rest]
    rfl
  cases value with
  | none =>
      simp only [returnFrom, Option.map_none, noBuffer, noBuffer', sameType, resumed.world]
  | some reg =>
      simp only [returnFrom, Option.map_some, noBuffer, noBuffer', sameType, resumed.world,
        agree reg rfl, Bool.false_eq_true, if_false]

section Taken

variable (types : TypesHold function header relaxed)
  (resumable : Resumable module host function header relaxed origin)
include types resumable

omit records reachable in
/-- What is merged at the header is the word the function has there. -/
theorem Resumption.merged_mt {target : IrBlockId} {regs : Regs}
    (chosen : chosenTarget state.frame.regs block.terminator = some target)
    (transferred :
      transfer function state.block block.terminator target state.frame.regs = .ok regs)
    (isHeader : target = result.header) {value : Redefined}
    (member : value ∈ redefinedOf function result) :
    regs value.reg = state.frame.regs value.reg ∧ (regs value.reg).mt = Mt.phi value.ty := by
  have stepped : Stepped module host function state
      { block := target, pc := 0, frame := { state.frame with regs }, world := state.world } :=
    .moved found done chosen transferred
  obtain ⟨targetBlock, isTarget, moved⟩ := moved_of_transfer transferred
  constructor
  · refine moved.others _ fun isPhi => ?_
    rw [isHeader, resumption.accepted.isHeader, resumption.accepted.isBlock] at isTarget
    cases isTarget
    obtain ⟨phi, inHeader, same⟩ := List.mem_map.mp isPhi
    exact resumption.unnamed_phi inHeader (same ▸ List.mem_map_of_mem member)
  · obtain ⟨handed, recorded, inside, typed⟩ := resumption.redefined_typed types member
    refine resumable.words (resumed.after.trans (.of_step (step_eq_inl.mpr stepped))) ?_ handed
      recorded inside typed
    rw [isHeader, resumption.accepted.isHeader]
    rfl

/-- An edge of the function is taken in the variant, or stops there for the same
reason. -/
theorem Resumption.settled_transfer {target : IrBlockId}
    (chosen : chosenTarget state.frame.regs block.terminator = some target) (rename : IrId → IrId) :
    settled (transfer function state.block block.terminator target state.frame.regs) =
      settled (transfer variant state.block (block.terminator.renameUses rename) target
        state'.frame.regs) := by
  have isEdge : ∀ successor ∈ block.terminator.successors,
      BlockEdge function state.block successor := fun successor member =>
    ⟨block, found, member⟩
  have goesThere := chosenTarget_mem chosen
  have edge := isEdge target goesThere
  refine Osr.settled_transfer (IrTerminator.successors_renameUses _ _)
    (fun successor member => resumption.settled_edgeMoves resumed.inside (isEdge successor member))
    goesThere ?_
  intro all moves moves' decoded goes goes'
  obtain ⟨targetBlock, targetBlock', isTarget, -, -⟩ :=
    resumption.target_blocks resumed.inside edge
  rcases resumption.edgeMoves_variant resumed.inside edge with
    ⟨stops, -⟩ | ⟨others, own, isMoves, isMoves', alike⟩
  · rw [stops] at goes
    cases goes
  · cases goes.symm.trans isMoves
    cases goes'.symm.trans isMoves'
    refine settled_takeMoves ?_ ?_
    · obtain ⟨other, isOther, listed⟩ := edgeMoves_eq_ok.mp goes
      cases isTarget.symm.trans isOther
      have inTarget : ∀ move ∈ moves, move.1 ∈ targetBlock.phiNodes ∧
          move.1.valueFrom state.block = some move.2 := by
        intro move member
        obtain ⟨index, inMoves, rfl⟩ := List.mem_iff_getElem.mp member
        have inPhis : index < targetBlock.phiNodes.length := listed.length_eq ▸ inMoves
        obtain ⟨value, isPhi⟩ := listed.get inPhis inMoves
        simp only [List.get_eq_getElem] at value isPhi
        rw [isPhi]
        exact ⟨List.getElem_mem inPhis, value⟩
      refine ((List.forall₂_and_left _ _).mpr ⟨inTarget, alike⟩).imp ?_
      rintro move move' ⟨⟨isPhi, value⟩, same⟩
      refine ⟨same.dest, same.ty, ?_⟩
      rw [same.value]
      exact resumption.phi_operand_word records reachable resumed found done edge isTarget isPhi
        value
    · intro after taken move isMerge
      unfold mergeMoves at isMerge
      split_ifs at isMerge with isHeader
      · obtain ⟨value, member, rfl⟩ := List.mem_map.mp isMerge
        have transferred := transfer_eq_ok.mpr ⟨⟨all, decoded⟩, moves, goes, taken⟩
        obtain ⟨same, mt⟩ := resumption.merged_mt resumed found done types resumable chosen
          transferred isHeader member
        refine ⟨state.frame.regs value.reg, ?_⟩
        rw [resumption.merged_word records resumed found done (isHeader ▸ edge) member]
        exact phiWord_of_mt (same ▸ mt)
      · cases isMerge

/-- After an edge taken in both, the states stand for each other again. -/
theorem Resumption.moved_variant {target : IrBlockId} {regs regs' : Regs} (rename : IrId → IrId)
    (chosen : chosenTarget state.frame.regs block.terminator = some target)
    (transferred :
      transfer function state.block block.terminator target state.frame.regs = .ok regs)
    (transferred' : transfer variant state.block (block.terminator.renameUses rename) target
      state'.frame.regs = .ok regs') :
    Resumed module host function variant result origin
      { block := target, pc := 0, frame := { state.frame with regs }, world := state.world }
      { block := target, pc := 0, frame := { state'.frame with regs := regs' },
        world := state'.world } := by
  have edge : BlockEdge function state.block target := ⟨block, found, chosenTarget_mem chosen⟩
  have targetInside := resumption.successor_mem resumed.inside edge
  obtain ⟨targetBlock, targetBlock', isTarget, isTarget', region⟩ :=
    resumption.target_blocks resumed.inside edge
  obtain ⟨own, phis, related⟩ := region.phis
  have moved : Moved targetBlock state.block state.frame.regs regs := by
    obtain ⟨other, isOther, moved⟩ := moved_of_transfer transferred
    cases isTarget.symm.trans isOther
    exact moved
  have moved' : Moved targetBlock' state.block state'.frame.regs regs' := by
    obtain ⟨other, isOther, moved⟩ := moved_of_transfer transferred'
    cases isTarget'.symm.trans isOther
    exact moved
  have received := moved.phis (resumption.ssa.phisDistinct isTarget)
  have received' := moved'.phis (resumption.phis_distinct targetInside isTarget')
  have merges : ∀ {reg}, reg < function.nextRegId → reg ∉ ((carrierOf function result).mergePhis
      (redefinedOf function result) target).map (·.dest) := by
    intro reg small listed
    obtain ⟨phi, isMerge, rfl⟩ := List.mem_map.mp listed
    unfold Carrier.mergePhis at isMerge
    split_ifs at isMerge
    · obtain ⟨value, member, rfl⟩ := List.mem_map.mp isMerge
      exact phi_ne_own member small rfl
    · cases isMerge
  have stepped : Stepped module host function state
      { block := target, pc := 0, frame := { state.frame with regs }, world := state.world } :=
    .moved found done chosen transferred
  refine ⟨resumed.after.trans (.of_step (step_eq_inl.mpr stepped)), rfl, rfl, resumed.world,
    resumed.slots, resumed.environment, resumed.unmoved, targetInside, fun _ => Nat.zero_le _,
    ?_, ?_⟩
  · intro reg small available
    by_cases isPhi : reg ∈ targetBlock.phiNodes.map (·.dest)
    · obtain ⟨phi, member, rfl⟩ := List.mem_map.mp isPhi
      obtain ⟨phi', inOwn, same⟩ := exists_right related member
      obtain ⟨value, isValue, word⟩ := received phi member
      obtain ⟨value', isValue', word'⟩ := received' phi' (phis ▸ List.mem_append_left _ inOwn)
      rw [same.inside _ resumed.inside, isValue, Option.map_some] at isValue'
      cases isValue'
      rw [same.ty, same.dest, resumption.phi_operand_word records reachable resumed found done edge
        isTarget member isValue, word] at word'
      exact (Except.ok.inj word').symm
    · have absent : reg ∉ targetBlock'.phiNodes.map (·.dest) := by
        rw [phis, List.map_append, List.mem_append, not_or]
        refine ⟨fun isOwn => isPhi ?_, merges small⟩
        obtain ⟨phi', member, rfl⟩ := List.mem_map.mp isOwn
        obtain ⟨phi, inTarget, same⟩ := exists_left related member
        rw [same.dest]
        exact List.mem_map_of_mem inTarget
      change regs' reg = regs reg
      rw [moved.others reg isPhi, moved'.others reg absent]
      refine resumed.own small ?_
      obtain ⟨before', inVariant, atSource⟩ := resumption.getBlock_region resumed.inside found
      have isLeft : Edge variant (pointOf state) (target, 0) := by
        rw [resumed.at_end found done]
        refine .across inVariant ?_ ?_
        · rw [atSource.instructions, List.length_map]
        · rw [IrBasicBlock.successors, atSource.terminator, IrTerminator.successors_renameUses]
          exact chosenTarget_mem chosen
      refine available.before isLeft fun defines => ?_
      rcases definition_at_start defines with isEntry | ⟨other, isBlock, isDest⟩
      · rw [resumption.entryBlock] at isEntry
        exact resumption.entry_notMem (isEntry ▸ targetInside)
      · cases isTarget'.symm.trans isBlock
        exact absent isDest
  · intro value member away notThere
    change regs' value.phi = regs value.reg
    by_cases isHeader : target = result.header
    · obtain ⟨same, mt⟩ := resumption.merged_mt resumed found done types resumable chosen
        transferred isHeader member
      have allMerges : (carrierOf function result).mergePhis (redefinedOf function result) target =
          (redefinedOf function result).map (carrierOf function result).mergePhi := if_pos isHeader
      have isMerge : (carrierOf function result).mergePhi value ∈ targetBlock'.phiNodes := by
        rw [phis, allMerges]
        exact List.mem_append_right _ (List.mem_map_of_mem member)
      obtain ⟨name, isName, word⟩ := received' _ isMerge
      rw [mergePhi_valueFrom
        (resumption.mem_headerPreds resumed.inside (isHeader ▸ edge))] at isName
      cases isName
      rw [resumption.merged_word records resumed found done (isHeader ▸ edge) member, ← same] at word
      have kept := phiWord_of_mt mt
      exact Except.ok.inj (word.symm.trans kept)
    · have onward : state.block ≠ value.block ∧
          state.block ∉ unmerged (enteredVariant function result) result.header value.block := by
        have inEntered := resumption.edge_entered (resumption.edge_variant resumed.inside edge)
        constructor
        · exact fun same => away (unmerged_step (Or.inl same) inEntered isHeader)
        · exact fun made => away (unmerged_step (Or.inr made) inEntered isHeader)
      have unwritten : value.reg ∉ targetBlock.phiNodes.map (·.dest) := by
        intro isPhi
        obtain ⟨-, written⟩ := resumption.redefined_written records member
        exact notThere (resumption.written_unique
          ⟨targetBlock, isTarget, List.mem_append_left _ isPhi⟩ written)
      have untouched : value.phi ∉ targetBlock'.phiNodes.map (·.dest) := by
        have noMerge : (carrierOf function result).mergePhis (redefinedOf function result) target =
            [] := if_neg isHeader
        rw [phis, noMerge, List.append_nil]
        intro isOwn
        obtain ⟨phi', inOwn, isDest⟩ := List.mem_map.mp isOwn
        obtain ⟨phi, inTarget, same⟩ := exists_left related inOwn
        rw [same.dest] at isDest
        exact phi_ne_own member
          (resumption.numbered.registers isTarget _ (mentioned_of_phi inTarget)) isDest.symm
      rw [moved.others _ unwritten, moved'.others _ untouched]
      exact resumed.merged member onward.2 onward.1

end Taken

end Crossing

section Run

variable (types : TypesHold function header relaxed) {origin : State E}
  (resumable : Resumable module host function header relaxed origin)
include types resumable

theorem Resumption.step_next {state next state' : State E}
    (resumed : Resumed module host function variant result origin state state')
    (stepped : (machine module host function).step state = .inl next) :
    ∃ next', (machine module host variant).step state' = .inl next' ∧
      Resumed module host function variant result origin next next' := by
  obtain ⟨block, found⟩ := exists_block resumed.inside
  obtain ⟨block', inVariant, region⟩ := resumption.getBlock_region resumed.inside found
  have isStep : Stepped module host function state next := step_eq_inl.mp stepped
  cases isStep with
  | executed isBlock here ran =>
      cases found.symm.trans isBlock
      obtain ⟨next', step', onward⟩ := resumption.executed_variant records reachable types resumed
        found here inVariant region ran
      exact ⟨next', step_eq_inl.mpr step', onward⟩
  | @moved _ target regs isBlock done chosen transferred =>
      cases found.symm.trans isBlock
      have words : ∀ reg ∈ block.terminator.reads, state'.frame.regs
          ((carrierOf function result).rename (redefinedOf function result) state.block reg) =
            state.frame.regs reg :=
        fun reg => resumption.terminator_word records reachable resumed found done region
      have sameTarget := (chosenTarget_renameUses words).trans chosen
      obtain ⟨regs', transferred'⟩ := ok_of_settled (resumption.settled_transfer records reachable
        resumed found done types resumable chosen ((carrierOf function result).rename
          (redefinedOf function result) state.block)) transferred
      refine ⟨_, step_eq_inl.mpr (.moved (by rw [resumed.block]; exact inVariant) ?_ ?_ ?_),
        resumption.moved_variant records reachable resumed found done types resumable _ chosen
          transferred transferred'⟩
      · rw [resumed.pc, region.instructions, List.length_map]
        exact done
      · rw [region.terminator]
        exact sameTarget
      · rw [region.terminator, resumed.block]
        exact transferred'

theorem Resumption.step_outcome {state state' : State E} {outcome : Outcome E}
    (resumed : Resumed module host function variant result origin state state')
    (stepped : (machine module host function).step state = .inr outcome) :
    (machine module host variant).step state' = .inr outcome := by
  obtain ⟨block, found⟩ := exists_block resumed.inside
  obtain ⟨block', inVariant, region⟩ := resumption.getBlock_region resumed.inside found
  have atVariant : variant.getBlock state'.block = some block' := resumed.block ▸ inVariant
  change step module host function state = .inr outcome at stepped
  change step module host variant state' = .inr outcome
  unfold step at stepped ⊢
  simp only [found] at stepped
  simp only [atVariant]
  have sameAt : block'.instructions[state'.pc]? = (block.instructions[state.pc]?).map
      (·.renameUses ((carrierOf function result).rename (redefinedOf function result)
        state.block)) := by
    rw [region.instructions, resumed.pc, List.getElem?_map]
  cases here : block.instructions[state.pc]? with
  | some inst =>
      rw [here, Option.map_some] at sameAt
      simp only [here] at stepped
      simp only [sameAt]
      have same := resumption.eval_variant records reachable types resumed found here region
      cases evaluated : eval module host (declOf function inst) (state.frame.site inst)
          state.frame.regs inst state.world with
      | ok value =>
          have ran : execute module host function inst state.frame state.world =
              .ok (state.frame.after inst value.1, value.2) :=
            execute_eq_ok.mpr ⟨value.1, evaluated, rfl⟩
          simp [ran] at stepped
      | error stop =>
          rw [evaluated] at same
          have stops : execute module host function inst state.frame state.world =
              .error stop := by
            unfold execute
            rw [evaluated]
            rfl
          have stops' : execute module host variant (inst.renameUses
              ((carrierOf function result).rename (redefinedOf function result) state.block))
              state'.frame state'.world = .error stop := by
            unfold execute
            rw [same]
            rfl
          rw [stops] at stepped
          rw [stops']
          exact stepped
  | none =>
      rw [here, Option.map_none] at sameAt
      simp only [here] at stepped
      simp only [sameAt]
      have done := List.getElem?_eq_none_iff.mp here
      have words : ∀ reg ∈ block.terminator.reads, state'.frame.regs
          ((carrierOf function result).rename (redefinedOf function result) state.block reg) =
            state.frame.regs reg :=
        fun reg => resumption.terminator_word records reachable resumed found done region
      rw [region.terminator, resumed.block]
      generalize isRename : (carrierOf function result).rename (redefinedOf function result)
        state.block = rename at words ⊢
      cases chosen : chosenTarget state.frame.regs block.terminator with
      | some target =>
          have sameTarget := (chosenTarget_renameUses words).trans chosen
          rw [terminate_of_chosen chosen] at stepped
          rw [terminate_of_chosen sameTarget]
          cases transferred : transfer function state.block block.terminator target
              state.frame.regs with
          | ok regs => simp [arrive, transferred] at stepped
          | error stop =>
              have stops := error_of_settled (resumption.settled_transfer records reachable
                resumed found done types resumable chosen rename) transferred
              rw [transferred] at stepped
              rw [stops]
              simp only [arrive, resumed.world] at stepped ⊢
              exact stepped
      | none =>
          cases isTerm : block.terminator with
          | branch _ => simp [isTerm, chosenTarget] at chosen
          | condBranch _ _ _ => simp [isTerm, chosenTarget] at chosen
          | switch _ _ _ => simp [isTerm, chosenTarget] at chosen
          | unreachable =>
              rw [isTerm] at stepped
              simp only [terminate, IrTerminator.renameUses, resumed.world] at stepped ⊢
              exact stepped
          | noReturn call =>
              rw [isTerm] at stepped
              simp only [terminate, IrTerminator.renameUses, resumed.world] at stepped ⊢
              exact stepped
          | ret value =>
              rw [isTerm] at stepped words
              simp only [terminate, IrTerminator.renameUses] at stepped ⊢
              rw [resumption.returnFrom_variant resumed]
              · exact stepped
              · intro reg isValue
                exact words reg (by simpa [IrTerminator.reads] using isValue)

/-- Step for step, the variant goes on as the function does. -/
theorem Resumption.simulates : Machine.Simulates (machine module host function)
    (machine module host variant) (Resumed module host function variant result origin)
    fun _ => 0 where
  observed resumed := congrArg World.trace resumed.world.symm
  next := by
    intro state next state' resumed stepped
    obtain ⟨next', stepped', onward⟩ :=
      resumption.step_next records reachable types resumable resumed stepped
    refine ⟨1, next', ?_, onward, fun isZero => absurd isZero Nat.one_ne_zero⟩
    rw [Machine.run_succ_of_next 0 stepped', Machine.run_zero]
  outcome := by
    intro state state' outcome resumed stepped
    have stepped' := resumption.step_outcome records reachable types resumable resumed stepped
    exact ⟨1, Machine.run_succ_of_outcome 0 stepped'⟩

end Run

end Resuming

end Rayzor.Osr
