import Rayzor.Ssa.Checked
import Rayzor.Ssa.Equations
import Rayzor.Osr.Resumes

/-!
Contract: entering a variant with a filled frame continues the function.
-/

namespace Rayzor.Osr

open Ir Library Library.Graph Analysis Interp Ssa

variable {E : Type}

/-- The state a transfer enters a variant with: the frame's address as its one
argument, and the stack slots of the frame it replaces. -/
def transferred (variant : IrFunction) (address : BitVec 64) (state : State E) : State E :=
  entryState variant (entryFrame variant [address] state.frame.slots 0 0) state.world

/-- Entered with any frame filled for the state, the variant does what the
function goes on to do from it. -/
def ContinuesFrom (module : IrModule) (host : Host E) (function : IrFunction)
    (variant : OsrVariant) (state : State E) : Prop :=
  ∀ address, FrameFilled variant.layout state.world.memory address state.frame.regs →
    Machine.SameBehaviour (machine module host function) (machine module host variant.function)
      state (transferred variant.function address state)

def buildFor (relaxed : Bool) (function : IrFunction) (header : IrBlockId) :
    Except OsrReject OsrVariant :=
  if relaxed then buildResumeVariant function header else buildOsrVariant function header

theorem resumption_of_built {function : IrFunction} {header : IrBlockId} {relaxed : Bool}
    {variant : OsrVariant} (ssa : SsaForm function) (consistent : PredecessorsConsistent function)
    (numbered : Numbered function) (built : buildFor relaxed function header = .ok variant) :
    ∃ headerBlock lives, Resumption function header relaxed variant.layout headerBlock lives
      variant.function := by
  have laidOut : ∃ result, layout function header relaxed = .ok result ∧
      buildVariant function header result = .ok variant := by
    unfold buildFor at built
    split_ifs at built with isRelaxed
    · exact isRelaxed ▸ bind_eq_ok.mp built
    · rw [Bool.not_eq_true] at isRelaxed
      exact isRelaxed ▸ bind_eq_ok.mp built
  obtain ⟨result, isLayout, built⟩ := laidOut
  obtain ⟨headerBlock, lives, accepted⟩ := accepted_of_layout isLayout
  obtain ⟨carried, isCarried, same⟩ := bind_eq_ok.mp built
  cases same
  refine ⟨headerBlock, lives, ssa, consistent, numbered, accepted, ?_⟩
  have inner : (carrierOf function result).header ≠ (carrierOf function result).entry := by
    change result.header ≠ osrEntryId function
    rw [accepted.isHeader]
    exact ne_of_lt (numbered.blocks accepted.isBlock)
  have isCarried' : (redefinedOf function result).foldlM (carrierOf function result).carryValue
      (carrierOf function result).variant = .ok carried := by
    rw [← accepted.isHeader] at isCarried
    exact isCarried
  exact carriedTo_foldlM (accepted.apart ssa numbered) inner carriedTo_nil isCarried'

theorem mergePhi_fromEntry (function : IrFunction) (result : OsrLayout) (value : Redefined) :
    ((carrierOf function result).mergePhi value).valueFrom (osrEntryId function) =
      some value.arrived := by
  simp [IrPhiNode.valueFrom, Carrier.mergePhi, carrierOf]

section Entering

variable {module : IrModule} {host : Host E} {function variant : IrFunction}
  {header : IrBlockId} {relaxed : Bool} {result : OsrLayout} {headerBlock : IrBasicBlock}
  {lives : List OsrSlot}
  (resumption : Resumption function header relaxed result headerBlock lives variant)
include resumption

theorem Resumption.entryFrame_framePtr (address : BitVec 64) (slots : Option IrId → BitVec 64) :
    (entryFrame variant [address] slots 0 0).regs (framePtr function) = ⟨.i64, address⟩ := by
  simp [entryFrame, resumption.parameters, Mt.of, canon]

theorem Resumption.written_by_prologue {reg : IrId} (own : reg < function.nextRegId)
    {entry : IrBasicBlock} (found : variant.getBlock (osrEntryId function) = some entry)
    (available : Available variant reg (osrEntryId function, entry.instructions.length)) :
    ∃ load ∈ (layoutLoads function result).1, load.slot.param = .live reg ∧ load.dest = reg := by
  obtain ⟨entry', isEntry, instructions, -, noPhis⟩ := resumption.atEntry
  cases found.symm.trans isEntry
  have atStart : EntryPath (Edge variant) (entryPoint variant) [entryPoint variant]
      (osrEntryId function, 0) := by
    have same : entryPoint variant = (osrEntryId function, 0) :=
      Prod.ext resumption.entryBlock rfl
    rw [← same]
    exact .start
  obtain ⟨longer, walk, within⟩ := through_block found atStart le_rfl
  obtain ⟨point, onPath, defines⟩ := available longer walk
  have atEntry : point.1 = osrEntryId function := by
    rcases within point onPath with isStart | same
    · rw [List.mem_singleton.mp isStart]
      exact resumption.entryBlock
    · exact same
  cases defines with
  | parameter member =>
      rw [resumption.parameters, List.map_singleton, List.mem_singleton] at member
      exact absurd own (by rw [member]; exact lt_irrefl _)
  | phi isBlock member =>
      obtain rfl : _ = osrEntryId function := atEntry
      cases found.symm.trans isBlock
      rw [noPhis] at member
      cases member
  | @instruction _ _ pc inst isBlock here writes =>
      obtain rfl : _ = osrEntryId function := atEntry
      cases found.symm.trans isBlock
      have inCode := List.mem_of_getElem? here
      rw [instructions] at inCode
      obtain ⟨load, inLoads, isCode⟩ := List.mem_flatMap.mp inCode
      have listed : ∃ ty, (reg, ty) ∈ load.types := by
        simp only [SlotLoad.code, List.mem_cons, List.not_mem_nil, or_false] at isCode
        rcases isCode with rfl | rfl | rfl
        · cases writes
          exact ⟨.i64, by simp [SlotLoad.types]⟩
        · cases writes
          exact ⟨.ptr .i8, by simp [SlotLoad.types]⟩
        · cases writes
          exact ⟨load.slot.ty, by simp [SlotLoad.types]⟩
      obtain ⟨ty, isTyped⟩ := listed
      rcases types_cases ((loads_spec function result).loadedAs load inLoads) isTyped with
        isFresh | ⟨isLive, -, isDest⟩
      · exact absurd own (lt_asymm (fresh_ge inLoads isFresh))
      · exact ⟨load, inLoads, isLive, isDest⟩

section Arriving

variable (types : TypesHold function header relaxed) {origin atJump : State E}
  (resumable : Resumable module host function header relaxed origin)
  (isHeader : pointOf origin = (header, 0))
  (holds : ∀ load ∈ (layoutLoads function result).1,
    load.slot.Holds origin.frame.regs (atJump.frame.regs load.dest))
include types resumable isHeader holds

theorem Resumption.merged_arrives {value : Redefined} (member : value ∈ redefinedOf function result) :
    phiWord value.ty (atJump.frame.regs value.arrived) = .ok (origin.frame.regs value.reg) := by
  obtain ⟨load, inLoads, isLive, -, isArrived, -⟩ := redefined_spec member
  obtain ⟨handed, recorded, inside, typed⟩ := resumption.redefined_typed types member
  have word := holds load inLoads
  rw [OsrSlot.Holds, isLive] at word
  rw [isArrived, word]
  exact phiWord_of_mt (resumable.words (.refl origin) isHeader handed recorded inside typed)

/-- Each phi of the header takes a word from the prologue: what its register
holds in the function. -/
theorem Resumption.phi_arrives {block' : IrBasicBlock} (found : variant.getBlock header = some block')
    {phi' : IrPhiNode} (member : phi' ∈ block'.phiNodes) :
    (∃ phi ∈ headerBlock.phiNodes, phi'.dest = phi.dest ∧ ∃ name,
      phi'.valueFrom (osrEntryId function) = some name ∧
        phiWord phi'.ty (atJump.frame.regs name) = .ok (origin.frame.regs phi.dest)) ∨
    ∃ value ∈ redefinedOf function result, phi'.dest = value.phi ∧ ∃ name,
      phi'.valueFrom (osrEntryId function) = some name ∧
        phiWord phi'.ty (atJump.frame.regs name) = .ok (origin.frame.regs value.reg) := by
  obtain ⟨other, isOther, region⟩ := resumption.headerBlock'
  cases found.symm.trans isOther
  obtain ⟨own, phis, related⟩ := region.phis
  rw [phis] at member
  rcases List.mem_append.mp member with isOwn | isMerge
  · obtain ⟨phi, inHeader, same⟩ := exists_left related isOwn
    obtain ⟨load, inLoads, slot, isName⟩ := same.entered resumption.accepted.isHeader.symm
    have word := holds load inLoads
    rw [slot] at word
    refine Or.inl ⟨phi, inHeader, same.dest, load.dest, isName, ?_⟩
    rw [same.ty]
    exact word
  · unfold Carrier.mergePhis at isMerge
    split_ifs at isMerge
    · obtain ⟨value, inAll, rfl⟩ := List.mem_map.mp isMerge
      exact Or.inr ⟨value, inAll, rfl, value.arrived, mergePhi_fromEntry function result value,
        resumption.merged_arrives types resumable isHeader holds inAll⟩
    · cases isMerge

theorem Resumption.jump_taken {block' : IrBasicBlock} (found : variant.getBlock header = some block') :
    ∃ regs', transfer variant (osrEntryId function) (.branch header) header atJump.frame.regs =
      .ok regs' := by
  have each : ∀ phi' ∈ block'.phiNodes, ∃ name,
      phi'.valueFrom (osrEntryId function) = some name ∧
        ∃ word, phiWord phi'.ty (atJump.frame.regs name) = .ok word := by
    intro phi' member
    rcases resumption.phi_arrives types resumable isHeader holds found member with
      ⟨phi, -, -, name, isName, word⟩ | ⟨value, -, -, name, isName, word⟩
    · exact ⟨name, isName, _, word⟩
    · exact ⟨name, isName, _, word⟩
  have decodes : ∃ moves, edgeMoves variant (osrEntryId function) header = .ok moves := by
    unfold edgeMoves
    rw [found]
    refine mapM_ok_of_forall fun phi' member => ?_
    obtain ⟨name, isName, -⟩ := each phi' member
    exact ⟨(phi', name), phiMove_eq_ok.mpr ⟨isName, rfl⟩⟩
  obtain ⟨moves, isMoves⟩ := decodes
  have words : ∃ words, moves.mapM (fun move => phiWord move.1.ty (atJump.frame.regs move.2)) =
      .ok words := by
    obtain ⟨other, isOther, listed⟩ := edgeMoves_eq_ok.mp isMoves
    cases found.symm.trans isOther
    refine mapM_ok_of_forall fun move member => ?_
    obtain ⟨phi', inBlock, isValue, same⟩ := exists_left listed member
    obtain ⟨name, isName, word⟩ := each phi' inBlock
    rw [isName] at isValue
    rw [same, ← Option.some.inj isValue]
    exact word
  obtain ⟨words, isWords⟩ := words
  have goes : takeMoves atJump.frame.regs moves =
      .ok (atJump.frame.regs.setAll ((moves.map (·.1.dest)).zip words)) := by
    unfold takeMoves
    rw [isWords]
    rfl
  refine ⟨_, transfer_eq_ok.mpr ⟨⟨[moves], ?_⟩, moves, isMoves, goes⟩⟩
  rw [IrTerminator.successors, List.mapM_cons, isMoves]
  rfl

end Arriving

theorem Resumption.enters (types : TypesHold function header relaxed) {origin : State E}
    (resumable : Resumable module host function header relaxed origin)
    (isHeader : pointOf origin = (header, 0)) {address : BitVec 64}
    (filled : FrameFilled result origin.world.memory address origin.frame.regs) :
    ∃ next, (machine module host variant).Reaches (transferred variant address origin) next ∧
      Resumed module host function variant result origin origin next := by
  obtain ⟨atJump, toJump, loaded, holds⟩ := resumption.prologue_runs module host
    filled (resumption.entryFrame_framePtr address origin.frame.slots)
  obtain ⟨entry, isEntry, instructions, jumps, -⟩ := resumption.atEntry
  obtain ⟨block', found, -⟩ := resumption.headerBlock'
  obtain ⟨regs', taken⟩ := resumption.jump_taken types resumable isHeader holds found
  have length : entry.instructions.length = 3 * (layoutLoads function result).1.length := by
    rw [instructions, osrEntry, List.length_flatMap]
    simp [SlotLoad.code, Nat.mul_comm]
  have toHeader : Stepped module host variant atJump
      { block := header, pc := 0, frame := { atJump.frame with regs := regs' },
        world := atJump.world } := by
    have atEntry : variant.getBlock atJump.block = some entry := loaded.block ▸ isEntry
    refine .moved atEntry ?_ ?_ ?_
    · rw [length, loaded.pc]
    · rw [jumps, resumption.accepted.isHeader]
      rfl
    · rw [loaded.block, jumps, resumption.accepted.isHeader]
      exact taken
  have moved : Moved block' (osrEntryId function) atJump.frame.regs regs' := by
    obtain ⟨other, isOther, moved⟩ := moved_of_transfer taken
    cases found.symm.trans isOther
    exact moved
  have headerInside := resumption.header_mem
  rw [resumption.accepted.isHeader] at headerInside
  have received := moved.phis (resumption.phis_distinct
    (resumption.accepted.isHeader.symm ▸ resumption.header_mem) found)
  have arrived : ∀ phi' ∈ block'.phiNodes,
      (∃ phi ∈ headerBlock.phiNodes, phi'.dest = phi.dest ∧
        regs' phi.dest = origin.frame.regs phi.dest) ∨
      ∃ value ∈ redefinedOf function result, phi'.dest = value.phi ∧
        regs' value.phi = origin.frame.regs value.reg := by
    intro phi' member
    obtain ⟨name, isName, word⟩ := received phi' member
    rcases resumption.phi_arrives types resumable isHeader holds found member with
      ⟨phi, inHeader, dest, name', isName', word'⟩ | ⟨value, inAll, dest, name', isName', word'⟩
    · cases isName.symm.trans isName'
      rw [← dest] at word'
      exact Or.inl ⟨phi, inHeader, dest, dest ▸ Except.ok.inj (word.symm.trans word')⟩
    · cases isName.symm.trans isName'
      exact Or.inr ⟨value, inAll, dest, dest ▸ Except.ok.inj (word.symm.trans word')⟩
  injection isHeader with isBlock isFirst
  refine ⟨_, toJump.trans (.of_step (step_eq_inl.mpr toHeader)), .refl origin, isBlock.symm,
    isFirst.symm, loaded.world, loaded.slots, ?_, ?_, ?_, ?_, ?_, ?_⟩
  · intro dest closure inRegion
    rw [resumption.accepted.isHeader] at inRegion
    exact loaded.env.trans (resumable.environment inRegion).symm
  · intro src line inRegion
    rw [resumption.accepted.isHeader] at inRegion
    exact (congrFun loaded.moved src).trans (resumable.unmoved inRegion).symm
  · rw [isBlock]
    exact resumption.accepted.isHeader ▸ headerInside
  · intro block isFound
    rw [isFirst]
    exact Nat.zero_le _
  · intro reg own available
    change regs' reg = origin.frame.regs reg
    by_cases isPhi : reg ∈ block'.phiNodes.map (·.dest)
    · obtain ⟨phi', member, isDest⟩ := List.mem_map.mp isPhi
      rcases arrived phi' member with ⟨phi, -, dest, word⟩ | ⟨value, inAll, dest, -⟩
      · rw [← isDest, dest]
        exact word
      · exact absurd (dest.symm.trans isDest) (phi_ne_own inAll own)
    · have isJump : Edge variant (osrEntryId function, entry.instructions.length) (header, 0) := by
        refine .across isEntry le_rfl ?_
        rw [IrBasicBlock.successors, jumps, resumption.accepted.isHeader]
        exact List.mem_singleton_self _
      have atEnd : Available variant reg (osrEntryId function, entry.instructions.length) := by
        rw [pointOf, isBlock, isFirst] at available
        refine available.before isJump fun defines => ?_
        rcases definition_at_start defines with isEntryBlock | ⟨other, isOther, isDest⟩
        · rw [resumption.entryBlock] at isEntryBlock
          exact resumption.entry_notMem
            (isEntryBlock ▸ resumption.accepted.isHeader.symm ▸ headerInside)
        · cases found.symm.trans isOther
          exact isPhi isDest
      obtain ⟨load, inLoads, isLive, isDest⟩ := resumption.written_by_prologue own isEntry atEnd
      have word := holds load inLoads
      rw [OsrSlot.Holds, isLive, isDest] at word
      rw [moved.others reg isPhi]
      exact word
  · intro value member _ _
    change regs' value.phi = origin.frame.regs value.reg
    obtain ⟨other, isOther, region⟩ := resumption.headerBlock'
    cases found.symm.trans isOther
    obtain ⟨own, phis, -⟩ := region.phis
    have allMerges : (carrierOf function result).mergePhis (redefinedOf function result) header =
        (redefinedOf function result).map (carrierOf function result).mergePhi :=
      if_pos resumption.accepted.isHeader.symm
    have isMerge : (carrierOf function result).mergePhi value ∈ block'.phiNodes := by
      rw [phis, allMerges]
      exact List.mem_append_right _ (List.mem_map_of_mem member)
    rcases arrived _ isMerge with ⟨phi, inHeader, dest, -⟩ | ⟨value', inAll, dest, word⟩
    · exact absurd dest (phi_ne_own member (resumption.numbered.registers
        resumption.accepted.isBlock _ (mentioned_of_phi inHeader)))
    · have same := List.inj_on_of_nodup_map (redefined_phis_distinct function result) member inAll
        dest
      rw [same]
      exact word

end Entering

/-- The counters are ahead of every block and register, one by one. -/
theorem numbered_of_checked {function : IrFunction}
    (checked : (function.cfg.blocks.entries.all fun entry =>
      decide (entry.1 < function.cfg.nextBlockId) &&
        (mentioned entry.2).all fun reg => decide (reg < function.nextRegId)) = true) :
    Numbered function := by
  simp only [List.all_eq_true, Bool.and_eq_true, decide_eq_true_eq] at checked
  constructor
  · intro id block found
    exact (checked _ (getBlock_eq_some_iff.mp found)).1
  · intro id block found reg member
    exact (checked _ (getBlock_eq_some_iff.mp found)).2 reg member

theorem exists_built {relaxed : Bool} {function : IrFunction} {header : IrBlockId}
    (property : OsrVariant → Bool)
    (checked : (buildFor relaxed function header).toOption.any property = true) :
    ∃ variant, buildFor relaxed function header = .ok variant ∧ property variant = true := by
  cases built : buildFor relaxed function header with
  | error _ => simp [built, Except.toOption] at checked
  | ok variant =>
      refine ⟨variant, rfl, ?_⟩
      simpa [built, Except.toOption] using checked

def countLoop : IrFunction where
  name := "count"
  signature :=
    { parameters := [{ name := "n", ty := .i32, reg := 0 }], returnType := .i32,
      callingConvention := .haxe, typeParams := [], usesSret := false }
  cfg :=
    { blocks := OrdMap.ofList [
        (0, { instructions := [.const 1 (.i32 0)], terminator := .branch 1 }),
        (1, { phiNodes := [{ dest := 2, incoming := [(0, 1), (1, 4)], ty := .i32 }]
              instructions := [.const 3 (.i32 1), .binOp 4 .add 2 3, .cmp 5 .lt 4 0]
              terminator := .condBranch 5 1 2
              predecessors := [0, 1] }),
        (2, { instructions := [], terminator := .ret (some 4), predecessors := [1] })]
      entryBlock := 0, nextBlockId := 3 }
  locals := .empty
  registerTypes := OrdMap.ofList [(0, .i32), (1, .i32), (2, .i32), (3, .i32), (4, .i32), (5, .bool)]
  externalLinkage := false
  nextRegId := 6
  typeParamTagFixups := []
  typeParamMetadataFixups := []

def countModule : IrModule where
  functions := OrdMap.ofList [(0, countLoop)]
  externFunctions := .empty

/-- The loop when it is first reached, counting to zero. -/
def countState : State Unit where
  block := 1
  pc := 0
  frame :=
    { entryFrame countLoop [0] (fun _ => 0) 0 0 with
      regs := (((entryFrame countLoop [0] (fun _ => 0) 0 0).regs.set 1 ⟨.i32, 0⟩).set 2 ⟨.i32, 0⟩) }
  world := World.blank

theorem countLoop_uses : regionUses countLoop (blocksReachableFrom countLoop 1) =
    [(4, 1), (2, 1), (3, 1), (4, 1), (0, 1), (5, 1), (4, 2)] := by decide

theorem countLoop_handedOver {reg : IrId} (handed : HandedOver countLoop 1 false reg) : reg = 0 := by
  obtain ⟨use, used, rfl, needed⟩ := handed
  have only : ∀ use ∈ [((4 : IrId), (1 : IrBlockId)), (2, 1), (3, 1), (4, 1), (0, 1), (5, 1),
      (4, 2)], (survey countLoop 1 false).needsSlot use.1 use.2 = some true → use.1 = 0 := by decide
  rw [countLoop_uses] at used
  exact only use used needed

theorem countLoop_records : RecordsHold countLoop 1 false where
  handed := by
    intro use used block needed recorded inside
    have isBound : use.1 = 0 := countLoop_handedOver ⟨use, used, rfl, needed⟩
    have outside : (definitionBlocks countLoop).get? 0 = some 0 := by decide
    rw [isBound, outside] at recorded
    cases recorded
    exact absurd inside (by decide)
  computed := by
    intro use used block computed recorded
    have inLoop : ∀ use ∈ [((4 : IrId), (1 : IrBlockId)), (2, 1), (3, 1), (4, 1), (0, 1), (5, 1),
        (4, 2)], (survey countLoop 1 false).needsSlot use.1 use.2 = some false →
          (definitionBlocks countLoop).get? use.1 = some 1 ∧ use.1 ∈ [2, 3, 4, 5] := by decide
    rw [countLoop_uses] at used
    obtain ⟨isLoop, written⟩ := inLoop use used computed
    cases recorded.symm.trans isLoop
    exact Or.inl ⟨_, rfl, written⟩

theorem countLoop_types : TypesHold countLoop 1 false where
  recorded := by
    intro reg handed
    rw [countLoop_handedOver handed]
    decide
  takenApart := by
    intro id block dest aggregate indices _ found taken
    have untouched : ∀ entry ∈ countLoop.cfg.blocks.entries, ∀ inst ∈ entry.2.instructions,
        (match inst with
          | .extractValue _ _ _ => false
          | _ => true) = true := by decide
    exact absurd (untouched _ (getBlock_eq_some_iff.mp found) _ taken) Bool.false_ne_true

def fillLoop : IrFunction where
  name := "fill"
  signature :=
    { parameters := [{ name := "p", ty := .ptr .u8, reg := 0 }], returnType := .i32,
      callingConvention := .haxe, typeParams := [], usesSret := false }
  cfg :=
    { blocks := OrdMap.ofList [
        (0, { instructions := [.const 1 (.i32 1)], terminator := .branch 1 }),
        (1, { instructions := [.memSet 0 1 1], terminator := .condBranch 1 1 2
              predecessors := [0, 1] }),
        (2, { instructions := [], terminator := .ret (some 1), predecessors := [1] })]
      entryBlock := 0, nextBlockId := 3 }
  locals := .empty
  registerTypes := OrdMap.ofList [(0, .ptr .u8), (1, .i32)]
  externalLinkage := false
  nextRegId := 2
  typeParamTagFixups := []
  typeParamMetadataFixups := []

/-- A block the entry jumps to reads a register that nothing defines. -/
def readsUndefined (function : IrFunction) (reg : IrId) (id : IrBlockId) : Bool :=
  (definitionPoints function).all (fun defined => defined.1 != reg) &&
    (successorsOf function.cfg function.cfg.entryBlock).contains id &&
    (function.getBlock id).any fun block => block.instructions.any fun inst =>
      inst.uses.contains reg

theorem not_defined_of_readsUndefined {function : IrFunction} {reg : IrId} {id : IrBlockId}
    (undefined : readsUndefined function reg id = true) : ¬DefinedBeforeUse function := by
  intro given
  simp only [readsUndefined, Bool.and_eq_true, List.all_eq_true, Option.any_eq_true,
    List.any_eq_true, List.contains_iff_mem, bne_iff_ne] at undefined
  obtain ⟨⟨nowhere, jumps⟩, block, found, inst, member, used⟩ := undefined
  obtain ⟨pc, here⟩ := List.mem_iff_getElem?.mp member
  have walk : EntryPath (BlockEdge function) function.cfg.entryBlock
      [id, function.cfg.entryBlock] id := .step .start (mem_successorsOf.mp jumps)
  obtain ⟨points, reached, -⟩ := points_of_blocks walk
  obtain ⟨longer, atRead, -⟩ :=
    through_block found reached (List.getElem?_eq_some_iff.mp here).1.le
  obtain ⟨point, -, defines⟩ := given.operands found here reg used longer atRead
  exact nowhere _ (mem_definitionPoints defines) rfl

end Rayzor.Osr
