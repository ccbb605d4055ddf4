import Rayzor.Osr.Built

/-!
Contract: a variant reads nothing it was not given.
-/

namespace Rayzor.Osr

open Ir Library Library.Graph Analysis Interp Ssa

/-- A block gives the register a value: one of its phis does, or an
instruction. -/
def WrittenIn (function : IrFunction) (reg : IrId) (id : IrBlockId) : Prop :=
  ∃ block, function.getBlock id = some block ∧ reg ∈ block.definitions

/-- The block that gives the register a value runs after the header: the header
dominates it, or it is past the loop. -/
def WrittenAfter (function : IrFunction) (header : IrBlockId) (reg : IrId) : Prop :=
  ∃ id, WrittenIn function reg id ∧
    (BlockDominates function header id ∨ Reaches function header id ∧ ¬Reaches function id header)

/-- The block a register read in the region is recorded under is the one that
gives it its value: for what is handed over, if that block is one of the region;
for what is not, unless its value is made after the header anyway. Two kinds of
registers fall short of it: the pointer of a `MemCopy` or `MemSet`, which
is recorded as its result, and a parameter of a function whose entry block is in
the region. -/
structure RecordsHold (function : IrFunction) (header : IrBlockId) (relaxed : Bool) : Prop where
  handed : ∀ use ∈ regionUses function (blocksReachableFrom function header), ∀ block,
    (survey function header relaxed).needsSlot use.1 use.2 = some true →
    (definitionBlocks function).get? use.1 = some block →
    block ∈ blocksReachableFrom function header → WrittenIn function use.1 block
  computed : ∀ use ∈ regionUses function (blocksReachableFrom function header), ∀ block,
    (survey function header relaxed).needsSlot use.1 use.2 = some false →
    (definitionBlocks function).get? use.1 = some block →
    WrittenIn function use.1 block ∨ WrittenAfter function header use.1

/-! ### Steps of the prologue -/

theorem prologue_at (framePtr : IrId) (before after : List SlotLoad) (load : SlotLoad) {step : Nat}
    (inside : step < 3) :
    ((before ++ load :: after).flatMap (SlotLoad.code framePtr))[3 * before.length + step]? =
      (load.code framePtr)[step]? := by
  have front : (before.flatMap (SlotLoad.code framePtr)).length = 3 * before.length := by
    induction before with
    | nil => rfl
    | cons first rest ih =>
        rw [List.flatMap_cons, List.length_append, ih, List.length_cons]
        simp only [SlotLoad.code, List.length_cons, List.length_nil]
        omega
  rw [List.flatMap_append, List.getElem?_append_right (by omega), front,
    Nat.add_sub_cancel_left, List.flatMap_cons, List.getElem?_append_left]
  exact inside

theorem exists_of_prologue {framePtr : IrId} {loads : List SlotLoad} {pc : Nat}
    {inst : IrInstruction} (here : (loads.flatMap (SlotLoad.code framePtr))[pc]? = some inst) :
    ∃ before load after step, loads = before ++ load :: after ∧ step < 3 ∧
      pc = 3 * before.length + step ∧ (load.code framePtr)[step]? = some inst := by
  induction loads generalizing pc with
  | nil => simp at here
  | cons load rest ih =>
      have three : (load.code framePtr).length = 3 := rfl
      rw [List.flatMap_cons] at here
      by_cases inFirst : pc < 3
      · rw [List.getElem?_append_left (by omega)] at here
        exact ⟨[], load, rest, pc, rfl, inFirst, by simp, here⟩
      · rw [List.getElem?_append_right (by omega), three] at here
        obtain ⟨before, other, after, step, rfl, below, place, isInst⟩ := ih here
        refine ⟨load :: before, other, after, step, rfl, below, ?_, isInst⟩
        rw [List.length_cons]
        omega

theorem mem_terminatorUses {term : IrTerminator} {reg : IrId} (isRead : reg ∈ term.reads) :
    reg ∈ terminatorUses term := by
  cases term <;> simp_all [IrTerminator.reads, terminatorUses]

/-! ### Definitions and the places they reach -/

section Definitions

variable {function : IrFunction} {reg : IrId} {id header : IrBlockId}

theorem WrittenIn.definesAt (written : WrittenIn function reg id) :
    ∃ block pc, function.getBlock id = some block ∧ pc ≤ block.instructions.length ∧
      DefinesAt function reg (id, pc) := by
  obtain ⟨block, found, member⟩ := written
  rcases List.mem_append.mp member with isPhi | isResult
  · exact ⟨block, 0, found, Nat.zero_le _, .phi found isPhi⟩
  · obtain ⟨inst, inBlock, writes⟩ := List.mem_filterMap.mp isResult
    obtain ⟨pc, here⟩ := List.mem_iff_getElem?.mp inBlock
    have inside := (List.getElem?_eq_some_iff.mp here).1
    exact ⟨block, pc + 1, found, inside, .instruction found here writes⟩

theorem definition_inside {block : IrBasicBlock} {first : Nat}
    (found : function.getBlock id = some block) (defines : DefinesAt function reg (id, first)) :
    first ≤ block.instructions.length := by
  generalize place : (id, first) = point at defines
  cases defines with
  | parameter =>
      injection place with _ isZero
      omega
  | phi =>
      injection place with _ isZero
      omega
  | instruction isBlock here =>
      injection place with isId isNext
      subst isId isNext
      cases found.symm.trans isBlock
      exact (List.getElem?_eq_some_iff.mp here).1

theorem definition_at_start (defines : DefinesAt function reg (id, 0)) :
    id = function.cfg.entryBlock ∨
      ∃ block, function.getBlock id = some block ∧ reg ∈ block.phiNodes.map (·.dest) := by
  generalize place : ((id, 0) : Point) = point at defines
  cases defines with
  | parameter =>
      injection place with isEntry
      exact Or.inl isEntry
  | phi found member =>
      injection place with isId
      subst isId
      exact Or.inr ⟨_, found, member⟩
  | instruction => cases place

theorem definition_le (ssa : SsaForm function) {first pc : Nat}
    (defines : DefinesAt function reg (id, first)) (available : Available function reg (id, pc))
    (reachable : Reachable function (id, pc)) : first ≤ pc := by
  by_contra later
  have before : Ssa.Dominates function (id, pc) (id, first) := dominates_later (by omega)
  have same := Graph.Dominates.antisymm reachable (ssa.dominates defines available) before
  injection same with _ same
  omega

theorem dominates_of_writtenAfter (ssa : SsaForm function)
    (written : WrittenIn function reg id) (after : BlockDominates function header id ∨
      Reaches function header id ∧ ¬Reaches function id header)
    (reachable : BlockReachable function header) {at_ : IrBlockId} {block : IrBasicBlock} {pc : Nat}
    (found : function.getBlock at_ = some block) (inside : pc ≤ block.instructions.length)
    (available : Available function reg (at_, pc)) :
    Graph.Dominates (BlockEdge function) header id at_ := by
  intro path walk
  by_contra absent
  obtain ⟨_, front⟩ := reachable
  obtain ⟨front, toHeader, -, distinct⟩ := front.simple
  obtain ⟨earlier, rfl, whole⟩ := toHeader.append walk
  obtain ⟨points, reached, visited⟩ := points_of_blocks whole
  obtain ⟨longer, atRead, within⟩ := through_block found reached inside
  obtain ⟨_, first, -, -, defines⟩ := written.definesAt
  have onPath := ssa.dominates defines available longer atRead
  have inBlocks : id ∈ path ++ earlier := by
    rcases within _ onPath with before | here
    · exact visited _ before
    · rw [show id = at_ from here]
      exact List.mem_append_left _ walk.last_mem
  have before := (List.mem_append.mp inBlocks).resolve_left absent
  rcases after with dominated | ⟨-, past⟩
  · have different : id ≠ header := by
      rintro rfl
      exact (List.nodup_cons.mp distinct).1 before
    obtain ⟨front, toId, isSuffix⟩ := toHeader.upTo (List.mem_cons_of_mem _ before)
    have again := dominated front toId
    rcases List.suffix_cons_iff.mp isSuffix with rfl | inEarlier
    · obtain ⟨_, same⟩ := toId.head
      injection same with same
      exact different same.symm
    · exact (List.nodup_cons.mp distinct).1 (inEarlier.subset again)
  · exact past (reaches_of_mem toHeader (List.mem_cons_of_mem _ before))

end Definitions

/-! ### Paths through the variant -/

section Variant

variable {function variant : IrFunction} {header : IrBlockId} {relaxed : Bool}
  {result : OsrLayout} {headerBlock : IrBasicBlock} {lives : List OsrSlot}

theorem available_of_blockDominates {id at_ : IrBlockId} {reg : IrId} {first pc : Nat}
    {block' : IrBasicBlock} (found : variant.getBlock id = some block')
    (inside : first ≤ block'.instructions.length) (defines : DefinesAt variant reg (id, first))
    (dominates : BlockDominates variant id at_) (order : id = at_ → first ≤ pc) :
    Available variant reg (at_, pc) := by
  refine Available.of_dominates defines ?_
  by_cases same : id = at_
  · subst same
    exact dominates_later (order rfl)
  · refine dominates_of_blocks dominates same fun block isBlock => ?_
    cases found.symm.trans isBlock
    exact inside

variable (resumption : Resumption function header relaxed result headerBlock lives variant)
include resumption

theorem Resumption.entryBlock : variant.cfg.entryBlock = osrEntryId function := by
  rw [resumption.carried.rest]
  exact entryBlock_recompute

theorem Resumption.parameters : variant.signature.parameters =
    [{ name := "osr_frame", ty := .ptr .i8, reg := framePtr function }] := by
  rw [resumption.carried.rest]
  rfl

/-- The edges of a variant are the prologue's and those of the region. -/
theorem Resumption.edge_cases {source target : IrBlockId} (edge : BlockEdge variant source target) :
    source = osrEntryId function ∧ target = header ∨
      source ∈ blocksReachableFrom function result.header ∧ BlockEdge function source target := by
  obtain ⟨block', found, successor⟩ := edge
  rcases resumption.getBlock_cases found with rfl | ⟨-, inside⟩
  · obtain ⟨block, isEntry, -, jumps, -⟩ := resumption.atEntry
    cases found.symm.trans isEntry
    rw [IrBasicBlock.successors, jumps] at successor
    exact Or.inl ⟨rfl, (List.mem_singleton.mp successor).trans resumption.accepted.isHeader⟩
  · obtain ⟨block, isBlock⟩ := exists_block inside
    obtain ⟨other, inVariant, region⟩ := resumption.getBlock_region inside isBlock
    cases found.symm.trans inVariant
    rw [IrBasicBlock.successors, region.terminator, IrTerminator.successors_renameUses] at successor
    exact Or.inr ⟨inside, block, isBlock, successor⟩

theorem Resumption.edge_entered {source target : IrBlockId}
    (edge : BlockEdge variant source target) :
    BlockEdge (enteredVariant function result) source target := by
  rcases resumption.edge_cases edge with ⟨rfl, rfl⟩ | ⟨inside, block, isBlock, successor⟩
  · refine ⟨{ osrEntry function result with
      predecessors := sourcesOf (enteredCfg function result).edges [] (osrEntryId function) },
      ?_, ?_⟩
    · rw [getBlock_enteredVariant, getBlock_enteredCfg, if_pos rfl]
      rfl
    · exact List.mem_singleton.mpr resumption.accepted.isHeader.symm
  · have notEntry : source ≠ osrEntryId function :=
      fun same => resumption.entry_notMem (same ▸ inside)
    refine ⟨{ enteredBlock function result source block with
      predecessors := sourcesOf (enteredCfg function result).edges [] source }, ?_, ?_⟩
    · rw [getBlock_enteredVariant, getBlock_enteredCfg, if_neg notEntry, if_pos inside, isBlock]
      rfl
    · change target ∈ (enteredBlock function result source block).terminator.successors
      rw [terminator_enteredBlock]
      exact successor

theorem Resumption.consistent_entered :
    PredecessorsConsistent (enteredVariant function result) := by
  refine consistent_recompute cfg_entered ?_
  intro source target block found successor
  have isBlock : target ∈ blocksReachableFrom function result.header →
      ∃ block', (enteredCfg function result).getBlock target = some block' := by
    intro inside
    obtain ⟨other, inFunction⟩ := exists_block inside
    rw [getBlock_enteredCfg]
    split_ifs
    · exact ⟨_, rfl⟩
    · exact ⟨_, by rw [inFunction, Option.map_some]⟩
  rw [getBlock_enteredCfg] at found
  split_ifs at found with isEntry inside
  · cases found
    rw [List.mem_singleton.mp successor] at isBlock ⊢
    exact isBlock resumption.header_mem
  · obtain ⟨other, inFunction, rfl⟩ := Option.map_eq_some_iff.mp found
    rw [IrBasicBlock.successors, terminator_enteredBlock] at successor
    exact isBlock (resumption.successor_mem inside ⟨other, inFunction, successor⟩)

theorem Resumption.walk_region {path : List IrBlockId} {id : IrBlockId}
    (walk : EntryPath (BlockEdge variant) variant.cfg.entryBlock path id) :
    id = osrEntryId function ∨ id ∈ blocksReachableFrom function result.header ∧
      ∃ inner, EntryPath (BlockEdge function) header inner id ∧ inner ⊆ path := by
  induction walk with
  | start => exact Or.inl resumption.entryBlock
  | step _ along ih =>
      refine Or.inr ?_
      rcases resumption.edge_cases along with ⟨rfl, rfl⟩ | ⟨inside, edge⟩
      · refine ⟨?_, [_], .start, by simp⟩
        have inside := resumption.header_mem
        rwa [resumption.accepted.isHeader] at inside ⊢
      · rcases ih with same | ⟨-, inner, walk, within⟩
        · exact absurd (same ▸ inside) resumption.entry_notMem
        · exact ⟨resumption.successor_mem inside edge, _, .step walk edge,
            List.cons_subset_cons _ within⟩

theorem Resumption.dominates_of_header {id at_ : IrBlockId} (inner : at_ ≠ osrEntryId function)
    (dominates : Graph.Dominates (BlockEdge function) header id at_) :
    BlockDominates variant id at_ := by
  intro path walk
  rcases resumption.walk_region walk with same | ⟨-, inside, fromHeader, within⟩
  · exact absurd same inner
  · exact within (dominates inside fromHeader)

theorem Resumption.dominates_of_tree {id at_ : IrBlockId}
    (dominates : (carrierOf function result).domtree.dominates id at_ = true) :
    BlockDominates variant id at_ := by
  have inEntered := DominatorTree.dominates_spec resumption.consistent_entered dominates
  have sameEntry : (enteredVariant function result).cfg.entryBlock = variant.cfg.entryBlock := by
    rw [resumption.entryBlock]
    exact entryBlock_recompute
  have carry : ∀ {path : List IrBlockId} {id : IrBlockId},
      EntryPath (BlockEdge variant) variant.cfg.entryBlock path id →
      EntryPath (BlockEdge (enteredVariant function result))
        (enteredVariant function result).cfg.entryBlock path id := by
    intro path id walk
    rw [sameEntry]
    induction walk with
    | start => exact .start
    | step _ along ih =>
        exact .step ih (resumption.edge_entered along)
  exact fun path walk => inEntered path (carry walk)

/-! ### Definitions of the variant -/

theorem Resumption.definesAt_region {id : IrBlockId} {reg : IrId}
    (inside : id ∈ blocksReachableFrom function result.header)
    (written : WrittenIn function reg id) :
    ∃ block' pc, variant.getBlock id = some block' ∧ pc ≤ block'.instructions.length ∧
      DefinesAt variant reg (id, pc) ∧ DefinesAt function reg (id, pc) := by
  obtain ⟨block, found, member⟩ := written
  obtain ⟨block', inVariant, region⟩ := resumption.getBlock_region inside found
  refine ⟨block', ?_⟩
  rcases List.mem_append.mp member with isPhi | isResult
  · obtain ⟨phi, inBlock, rfl⟩ := List.mem_map.mp isPhi
    refine ⟨0, inVariant, Nat.zero_le _, .phi inVariant ?_, .phi found isPhi⟩
    obtain ⟨own, phis, related⟩ := region.phis
    obtain ⟨index, below, rfl⟩ := List.mem_iff_getElem.mp inBlock
    have same := related.get below (related.length_eq ▸ below)
    rw [phis, List.map_append]
    refine List.mem_append_left _ (List.mem_map.mpr ⟨_, List.get_mem _ _, same.dest⟩)
  · obtain ⟨inst, inBlock, writes⟩ := List.mem_filterMap.mp isResult
    obtain ⟨pc, here⟩ := List.mem_iff_getElem?.mp inBlock
    have renamed : block'.instructions[pc]? = some (inst.renameUses
        ((carrierOf function result).rename (redefinedOf function result) id)) := by
      rw [region.instructions, List.getElem?_map, here]
      rfl
    exact ⟨pc + 1, inVariant, (List.getElem?_eq_some_iff.mp renamed).1,
      .instruction inVariant renamed ((IrInstruction.writes_renameUses _ inst).trans writes),
      .instruction found here writes⟩

/-- What is loaded is there once the prologue is done. -/
theorem Resumption.load_available {load : SlotLoad}
    (inLoads : load ∈ (layoutLoads function result).1) {at_ : IrBlockId} {pc : Nat}
    (order : at_ = osrEntryId function →
      (osrEntry function result).instructions.length ≤ pc) :
    Available variant load.dest (at_, pc) := by
  obtain ⟨block, found, instructions, -, -⟩ := resumption.atEntry
  have member : IrInstruction.load load.dest load.addr load.slot.ty ∈
      (osrEntry function result).instructions :=
    List.mem_flatMap.mpr ⟨load, inLoads, by simp [SlotLoad.code]⟩
  obtain ⟨index, here⟩ := List.mem_iff_getElem?.mp member
  have inside := (List.getElem?_eq_some_iff.mp here).1
  refine available_of_blockDominates found (instructions ▸ inside)
    (.instruction found (instructions ▸ here) rfl) ?_ fun same => ?_
  · rw [← resumption.entryBlock]
    exact Graph.Dominates.entry_left _
  · exact (Nat.succ_le_of_lt inside).trans (order same.symm)

/-- The header's phis, and those of the carried values with them, are there in
every block of the region. -/
theorem Resumption.headerPhi_available {block' : IrBasicBlock} {reg : IrId}
    (found : variant.getBlock header = some block')
    (member : reg ∈ block'.phiNodes.map (·.dest)) {at_ : IrBlockId}
    (inner : at_ ≠ osrEntryId function) (pc : Nat) : Available variant reg (at_, pc) := by
  refine available_of_blockDominates found (Nat.zero_le _) (.phi found member) ?_
    fun _ => Nat.zero_le _
  exact resumption.dominates_of_header inner (Graph.Dominates.entry_left _)

/-! ### Where each operand comes from -/

section Uses

variable {reg : IrId} {at_ : IrBlockId}
  (used : (reg, at_) ∈ regionUses function (blocksReachableFrom function header))
include used

/-- A register read in the region is one of the header's phis, or handed over as
it stands, or handed over and defined again, or needs no slot. -/
theorem Resumption.use_cases : (∃ phi ∈ headerBlock.phiNodes, phi.dest = reg) ∨
    (∃ load ∈ (layoutLoads function result).1, load.slot.param = .live reg ∧
      recordedInside function result reg = none ∧ load.dest = reg) ∨
    (∃ value ∈ redefinedOf function result, value.reg = reg) ∨
    (survey function header relaxed).needsSlot reg at_ = some false := by
  rcases resumption.accepted.covers.handed _ used with listed | computed
  · rw [← resumption.accepted.slots, ← resumption.accepted.loads_slots, List.map_map] at listed
    obtain ⟨load, inLoads, same⟩ := List.mem_map.mp listed
    have loadedAs := (loads_spec function result).loadedAs load inLoads
    cases isParam : load.slot.param with
    | headerPhi dest =>
        refine Or.inl ?_
        have isSlot := resumption.accepted.load_slot inLoads
        rw [resumption.accepted.slots] at isSlot
        rcases List.mem_append.mp isSlot with isPhi | isLive
        · obtain ⟨phi, inHeader, isPhi⟩ := List.mem_map.mp isPhi
          refine ⟨phi, inHeader, ?_⟩
          exact (congrArg (·.param.reg) isPhi).trans same
        · obtain ⟨use, -, isLive, -⟩ := resumption.accepted.covers.asked _ isLive
          rw [isParam] at isLive
          cases isLive
    | live other =>
        have isReg : other = reg := (congrArg OsrParam.reg isParam).symm.trans same
        subst isReg
        refine Or.inr ?_
        cases recorded : recordedInside function result other with
        | none =>
            exact Or.inl ⟨load, inLoads, isParam, rfl, (loadedAs.given _ isParam recorded).2⟩
        | some block =>
            obtain ⟨phi, again⟩ := loadedAs.again _ _ isParam recorded
            have made : load.redefined = some
                { reg := other, arrived := load.dest, block, ty := load.slot.ty, phi } := by
              rw [SlotLoad.redefined, again, isParam]
              rfl
            exact Or.inr (Or.inl ⟨_, List.mem_filterMap.mpr ⟨load, inLoads, made⟩, rfl⟩)
  · exact Or.inr (Or.inr (Or.inr computed))

theorem Resumption.computed_dominates (records : RecordsHold function header relaxed)
    (reachable : BlockReachable function header)
    (computed : (survey function header relaxed).needsSlot reg at_ = some false)
    {block : IrBasicBlock} {pc : Nat} (inside : at_ ∈ blocksReachableFrom function result.header)
    (found : function.getBlock at_ = some block) (within : pc ≤ block.instructions.length)
    (available : Available function reg (at_, pc)) :
    ∃ id ∈ blocksReachableFrom function result.header, WrittenIn function reg id ∧
      Graph.Dominates (BlockEdge function) header id at_ := by
  have region := @Accepted.mem_region _ _ _ _ _ _ resumption.accepted resumption.edges
  obtain ⟨path, fromHeader⟩ := walk_of_reaches (region.mp inside)
  have settle : ∀ id, WrittenIn function reg id →
      Graph.Dominates (BlockEdge function) header id at_ →
      ∃ id ∈ blocksReachableFrom function result.header, WrittenIn function reg id ∧
        Graph.Dominates (BlockEdge function) header id at_ := by
    intro id written dominates
    obtain ⟨front, toId⟩ := fromHeader.mem_reachable (dominates path fromHeader)
    exact ⟨id, region.mpr (reaches_of_walk toId), written, dominates⟩
  obtain ⟨recorded, isRecorded, -⟩ := Option.map_eq_some_iff.mp computed
  have isHeader : ∃ block, function.getBlock header = some block :=
    ⟨headerBlock, resumption.accepted.isBlock⟩
  rcases records.computed _ used recorded computed isRecorded with written | ⟨id, written, after⟩
  · refine settle recorded written ?_
    rcases recorded_of_computed resumption.edges isHeader computed isRecorded with
      dominated | past | always
    · exact dominates_of_writtenAfter resumption.ssa written (Or.inl dominated) reachable found
        within available
    · exact dominates_of_writtenAfter resumption.ssa written (Or.inr past) reachable found
        within available
    · exact always
  · exact settle id written
      (dominates_of_writtenAfter resumption.ssa written after reachable found within available)

end Uses

/-! ### Every operand has been written -/

theorem Resumption.reachable_point (reachable : BlockReachable function header) {id : IrBlockId}
    {block : IrBasicBlock} {pc : Nat} (inside : id ∈ blocksReachableFrom function result.header)
    (found : function.getBlock id = some block) (within : pc ≤ block.instructions.length) :
    Reachable function (id, pc) := by
  obtain ⟨_, toHeader⟩ := reachable
  obtain ⟨_, fromHeader⟩ := walk_of_reaches
    ((resumption.accepted.mem_region resumption.edges).mp inside)
  obtain ⟨_, -, whole⟩ := toHeader.append fromHeader
  obtain ⟨_, reached, -⟩ := points_of_blocks whole
  obtain ⟨longer, walk, -⟩ := through_block found reached within
  exact ⟨longer, walk⟩

/-- A phi of the header is never carried. -/
theorem Resumption.unnamed_phi {phi : IrPhiNode} (member : phi ∈ headerBlock.phiNodes) :
    phi.dest ∉ (redefinedOf function result).map (·.reg) := by
  intro named
  obtain ⟨value, inAll, same⟩ := List.mem_map.mp named
  obtain ⟨load, inLoads, isLive, -⟩ := redefined_spec inAll
  have distinct := resumption.accepted.slots_distinct resumption.ssa
  have isSlot := resumption.accepted.load_slot inLoads
  rw [resumption.accepted.slots] at isSlot distinct
  rw [List.map_append, List.nodup_append] at distinct
  have inPhis : phi.dest ∈ (phiSlots headerBlock).map (·.param.reg) :=
    List.mem_map.mpr ⟨_, List.mem_map_of_mem member, rfl⟩
  rcases List.mem_append.mp isSlot with isPhi | inLives
  · obtain ⟨other, -, isPhi⟩ := List.mem_map.mp isPhi
    rw [← isPhi] at isLive
    cases isLive
  · refine distinct.2.2 _ inPhis _ (List.mem_map_of_mem inLives) ?_
    rw [isLive]
    exact same.symm

theorem Resumption.apart : Apart (redefinedOf function result) :=
  resumption.accepted.apart resumption.ssa resumption.numbered

theorem Resumption.headerBlock' : ∃ block', variant.getBlock header = some block' ∧
    RegionBlock function result header headerBlock block' := by
  have inside := resumption.header_mem
  have atHeader := @Resumption.getBlock_region _ _ _ _ _ _ _ resumption result.header headerBlock
    inside
  rw [resumption.accepted.isHeader] at atHeader
  exact atHeader resumption.accepted.isBlock

theorem Resumption.mergedPhi_available {value : Redefined}
    (member : value ∈ redefinedOf function result) {at_ : IrBlockId}
    (inner : at_ ≠ osrEntryId function) (pc : Nat) : Available variant value.phi (at_, pc) := by
  obtain ⟨block', found, region⟩ := resumption.headerBlock'
  obtain ⟨own, phis, -⟩ := region.phis
  refine resumption.headerPhi_available found ?_ inner pc
  have isHeader : header = (carrierOf function result).header := resumption.accepted.isHeader.symm
  rw [phis, List.map_append, Carrier.mergePhis, if_pos isHeader]
  exact List.mem_append_right _ (List.mem_map.mpr
    ⟨_, List.mem_map_of_mem member, rfl⟩)

theorem Resumption.ownPhi_available {phi : IrPhiNode} (member : phi ∈ headerBlock.phiNodes)
    {at_ : IrBlockId} (inner : at_ ≠ osrEntryId function) (pc : Nat) :
    Available variant phi.dest (at_, pc) := by
  obtain ⟨block', found, region⟩ := resumption.headerBlock'
  obtain ⟨own, phis, related⟩ := region.phis
  refine resumption.headerPhi_available found ?_ inner pc
  obtain ⟨index, below, rfl⟩ := List.mem_iff_getElem.mp member
  have same := related.get below (related.length_eq ▸ below)
  rw [phis, List.map_append]
  exact List.mem_append_left _ (List.mem_map.mpr ⟨_, List.get_mem _ _, same.dest⟩)

theorem Resumption.redefined_written (records : RecordsHold function header relaxed)
    {value : Redefined} (member : value ∈ redefinedOf function result) :
    value.block ∈ blocksReachableFrom function result.header ∧
      WrittenIn function value.reg value.block := by
  obtain ⟨load, inLoads, isLive, recorded, -⟩ := redefined_spec member
  obtain ⟨isRecorded, within⟩ := Option.filter_eq_some_iff.mp recorded
  have inside : value.block ∈ blocksReachableFrom function result.header := by
    simpa using within
  refine ⟨inside, ?_⟩
  have isSlot := resumption.accepted.load_slot inLoads
  rw [resumption.accepted.slots] at isSlot
  rcases List.mem_append.mp isSlot with isPhi | inLives
  · obtain ⟨other, -, isPhi⟩ := List.mem_map.mp isPhi
    rw [← isPhi] at isLive
    cases isLive
  · obtain ⟨use, used, isUse, needed, -⟩ := resumption.accepted.covers.asked _ inLives
    have same : value.reg = use.1 := OsrParam.live.inj (isLive.symm.trans isUse)
    rw [same] at isRecorded ⊢
    rw [resumption.accepted.isHeader] at inside
    exact records.handed use used _ needed isRecorded inside

/-- The register that stands for a carried value where it is read has been
written there. -/
theorem Resumption.reaching_available (records : RecordsHold function header relaxed)
    {value : Redefined} (member : value ∈ redefinedOf function result) {at_ : IrBlockId}
    (inner : at_ ≠ osrEntryId function) {pc : Nat} {reg : IrId}
    (reaches : (carrierOf function result).reaching value at_ = some reg)
    (order : ∀ first, value.block = at_ → DefinesAt function value.reg (at_, first) → first ≤ pc) :
    Available variant reg (at_, pc) := by
  unfold Carrier.reaching at reaches
  split_ifs at reaches with dominates
  · cases reaches
    obtain ⟨inside, written⟩ := resumption.redefined_written records member
    obtain ⟨block', first, found, below, defines, original⟩ :=
      resumption.definesAt_region inside written
    exact available_of_blockDominates found below defines
      (resumption.dominates_of_tree dominates) fun same => order first same (same ▸ original)
  · cases reaches
    exact resumption.mergedPhi_available member inner pc

theorem Resumption.available_renamed (records : RecordsHold function header relaxed)
    (reachable : BlockReachable function header) {reg : IrId} {at_ : IrBlockId}
    (used : (reg, at_) ∈ regionUses function (blocksReachableFrom function header))
    {block : IrBasicBlock} {pc : Nat} (inside : at_ ∈ blocksReachableFrom function result.header)
    (found : function.getBlock at_ = some block) (within : pc ≤ block.instructions.length)
    (available : Available function reg (at_, pc))
    (reached : ∀ value ∈ redefinedOf function result, value.reg = reg →
      ((carrierOf function result).reaching value at_).isSome) :
    Available variant ((carrierOf function result).rename (redefinedOf function result) at_ reg)
      (at_, pc) := by
  have inner : at_ ≠ osrEntryId function := fun same => resumption.entry_notMem (same ▸ inside)
  have order : ∀ first, DefinesAt function reg (at_, first) → first ≤ pc := fun first defines =>
    definition_le resumption.ssa defines available
      (resumption.reachable_point reachable inside found within)
  by_cases named : reg ∈ (redefinedOf function result).map (·.reg)
  · obtain ⟨value, member, rfl⟩ := List.mem_map.mp named
    obtain ⟨name, reaches⟩ := Option.isSome_iff_exists.mp (reached value member rfl)
    rw [rename_of_mem resumption.apart member, reaches]
    exact resumption.reaching_available records member inner reaches fun first _ => order first
  · rw [rename_of_notMem named]
    rcases resumption.use_cases used with
      ⟨phi, inHeader, rfl⟩ | ⟨load, inLoads, -, -, rfl⟩ | ⟨value, member, rfl⟩ | computed
    · exact resumption.ownPhi_available inHeader inner pc
    · exact resumption.load_available inLoads fun same => absurd same inner
    · exact absurd (List.mem_map_of_mem member) named
    · obtain ⟨id, inRegion, written, dominates⟩ := resumption.computed_dominates used records
        reachable computed inside found within available
      obtain ⟨block', first, inVariant, below, defines, original⟩ :=
        resumption.definesAt_region inRegion written
      exact available_of_blockDominates inVariant below defines
        (resumption.dominates_of_header inner dominates) fun same => order first (same ▸ original)

/-! ### The prologue -/

theorem Resumption.prologue_operands {pc : Nat} {inst : IrInstruction}
    (here : (osrEntry function result).instructions[pc]? = some inst) :
    ∀ reg ∈ inst.uses, Available variant reg (osrEntryId function, pc) := by
  obtain ⟨block, found, instructions, -, -⟩ := resumption.atEntry
  obtain ⟨before, load, after, step, split, below, rfl, isInst⟩ := exists_of_prologue here
  have written : ∀ (index : Nat) {reg other}, (load.code (framePtr function))[index]? = some other →
      index < 3 → other.writes = some reg → index + 1 ≤ step →
      Available variant reg (osrEntryId function, 3 * before.length + step) := by
    intro index reg other isOther inside writes order
    have atPlace : block.instructions[3 * before.length + index]? = some other := by
      rw [instructions]
      refine Eq.trans ?_ isOther
      rw [← prologue_at (framePtr function) before after load inside, ← split]
      rfl
    refine available_of_blockDominates found (List.getElem?_eq_some_iff.mp atPlace).1
      (.instruction found atPlace writes) (Graph.Dominates.refl _) fun _ => ?_
    omega
  have frame : Available variant (framePtr function)
      (osrEntryId function, 3 * before.length + step) := by
    have defines : DefinesAt variant (framePtr function) (osrEntryId function, 0) := by
      have isParameter : framePtr function ∈ variant.signature.parameters.map (·.reg) := by
        rw [resumption.parameters]
        simp
      have atEntryPoint := DefinesAt.parameter isParameter
      rwa [entryPoint, resumption.entryBlock] at atEntryPoint
    exact available_of_blockDominates found (Nat.zero_le _) defines (Graph.Dominates.refl _)
      fun _ => Nat.zero_le _
  have threeSteps : step = 0 ∨ step = 1 ∨ step = 2 := by omega
  rcases threeSteps with rfl | rfl | rfl
  · cases isInst
    simp [IrInstruction.uses]
  · cases isInst
    simp only [IrInstruction.uses, List.mem_cons, List.not_mem_nil, or_false, forall_eq_or_imp,
      forall_eq]
    exact ⟨frame, written 0 rfl (by omega) rfl (by omega)⟩
  · cases isInst
    simp only [IrInstruction.uses, List.mem_cons, List.not_mem_nil, or_false, forall_eq]
    exact written 1 rfl (by omega) rfl (by omega)

/-! ### Operands of phis -/

/-- A phi of the region reads what has been written by the end of the block its
edge comes from. -/
theorem Resumption.ownPhi_operand (records : RecordsHold function header relaxed)
    (reachable : BlockReachable function header) {id source : IrBlockId}
    {block sourceBlock : IrBasicBlock} {phi phi' : IrPhiNode} {reg : IrId}
    (inside : id ∈ blocksReachableFrom function result.header)
    (isBlock : function.getBlock id = some block) {block' : IrBasicBlock}
    (region : RegionBlock function result id block block') (member : phi ∈ block.phiNodes)
    (isPhi : RegionPhi function result id phi phi') (listed : (source, reg) ∈ phi'.incoming)
    (isSource : variant.getBlock source = some sourceBlock) :
    Available variant reg (source, sourceBlock.instructions.length) := by
  by_cases isEntry : source = osrEntryId function
  · obtain ⟨load, inLoads, rfl⟩ := isPhi.fromEntry _ listed isEntry
    refine resumption.load_available inLoads fun _ => ?_
    obtain ⟨entryBlock, found, instructions, -⟩ := resumption.atEntry
    rw [isEntry, found] at isSource
    cases isSource
    rw [instructions]
  · obtain ⟨within, original, inPhi, renamed⟩ := isPhi.incoming _ listed isEntry
    dsimp only at within inPhi renamed
    subst renamed
    obtain ⟨before, inFunction⟩ := exists_block within
    obtain ⟨after, inVariant, atSource⟩ := resumption.getBlock_region within inFunction
    cases isSource.symm.trans inVariant
    have sameLength : sourceBlock.instructions.length = before.instructions.length := by
      rw [atSource.instructions, List.length_map]
    rw [sameLength]
    refine resumption.available_renamed records reachable ?_ within inFunction le_rfl
      (resumption.ssa.phis isBlock member inPhi inFunction) ?_
    · rw [resumption.accepted.isHeader] at inside within
      exact mem_regionUses.mpr
        ⟨id, inside, block, isBlock, mem_blockUses.mpr (Or.inl ⟨phi, member, inPhi, within⟩)⟩
    · intro value inAll same
      exact region.phisReached phi member _ inPhi within value inAll same

theorem Resumption.headerPred_mem {pred : IrBlockId}
    (member : pred ∈ (carrierOf function result).headerPreds) :
    pred ∈ blocksReachableFrom function result.header := by
  obtain ⟨listed, notEntry⟩ := List.mem_filter.mp member
  have inner : pred ≠ osrEntryId function := bne_iff_ne.mp notEntry
  unfold predecessorsOf at listed
  cases isHeader : (enteredVariant function result).getBlock result.header with
  | none =>
      rw [IrFunction.getBlock] at isHeader
      simp [carrierOf, isHeader] at listed
  | some block =>
      have recorded : pred ∈ block.predecessors := by
        rw [IrFunction.getBlock] at isHeader
        simpa [carrierOf, isHeader] using listed
      obtain ⟨from', found, -⟩ := resumption.consistent_entered.actual isHeader recorded
      rw [getBlock_enteredVariant, getBlock_enteredCfg, if_neg inner] at found
      split_ifs at found with inside
      · exact inside
      · cases found

/-- A merging phi reads what the prologue loaded, or the register that stands
for its value where the edge comes from. -/
theorem Resumption.mergePhi_operand (records : RecordsHold function header relaxed)
    (reachable : BlockReachable function header) {id source : IrBlockId}
    {sourceBlock : IrBasicBlock} {phi : IrPhiNode} {reg : IrId}
    (member : phi ∈ (carrierOf function result).mergePhis (redefinedOf function result) id)
    (listed : (source, reg) ∈ phi.incoming) (isSource : variant.getBlock source = some sourceBlock) :
    Available variant reg (source, sourceBlock.instructions.length) := by
  unfold Carrier.mergePhis at member
  split_ifs at member with isHeader
  · obtain ⟨value, inAll, rfl⟩ := List.mem_map.mp member
    rcases List.mem_cons.mp listed with isArrived | isMerged
    · cases isArrived
      obtain ⟨load, inLoads, -, -, isArrived, -⟩ := redefined_spec inAll
      rw [isArrived]
      refine resumption.load_available inLoads fun _ => ?_
      obtain ⟨entryBlock, found, instructions, -⟩ := resumption.atEntry
      cases found.symm.trans isSource
      rw [instructions]
    · obtain ⟨pred, isPred, same⟩ := List.mem_map.mp isMerged
      cases same
      have inside := resumption.headerPred_mem isPred
      obtain ⟨name, reaches⟩ := Option.isSome_iff_exists.mp
        (resumption.carried.merges value inAll _ isPred)
      rw [reaches, Option.getD_some]
      refine resumption.reaching_available records inAll
        (fun same => resumption.entry_notMem (same ▸ inside)) reaches fun first here defines => ?_
      obtain ⟨before, inFunction⟩ := exists_block inside
      obtain ⟨after, inVariant, atSource⟩ := resumption.getBlock_region inside inFunction
      cases isSource.symm.trans inVariant
      rw [atSource.instructions, List.length_map]
      exact definition_inside inFunction defines
  · cases member

/-- No instruction, terminator or phi edge of the variant reads a register that
has not been written on the way. -/
theorem Resumption.definedBeforeUse (records : RecordsHold function header relaxed)
    (reachable : BlockReachable function header) : DefinedBeforeUse variant where
  operands := by
    intro id block' pc inst found here reg used
    rcases resumption.getBlock_cases found with rfl | ⟨-, inside⟩
    · obtain ⟨block, isEntry, instructions, -, -⟩ := resumption.atEntry
      cases found.symm.trans isEntry
      exact resumption.prologue_operands (instructions ▸ here) reg used
    · obtain ⟨block, isBlock⟩ := exists_block inside
      obtain ⟨other, inVariant, region⟩ := resumption.getBlock_region inside isBlock
      cases found.symm.trans inVariant
      rw [region.instructions, List.getElem?_map] at here
      obtain ⟨original, atPc, rfl⟩ := Option.map_eq_some_iff.mp here
      have member := List.mem_of_getElem? atPc
      have below := (List.getElem?_eq_some_iff.mp atPc).1
      obtain ⟨operand, isOperand, rfl⟩ : ∃ operand ∈ original.uses,
          (carrierOf function result).rename (redefinedOf function result) id operand = reg := by
        cases keeps : original.operandsKept with
        | true =>
            rw [IrInstruction.uses_renameUses_of_kept _ original keeps] at used
            exact ⟨reg, used, region.kept original member keeps reg used⟩
        | false =>
            rw [IrInstruction.uses_renameUses _ original keeps] at used
            exact List.mem_map.mp used
      have isRead : reads block operand = true := reads_iff.mpr (Or.inl ⟨_, member, isOperand⟩)
      refine resumption.available_renamed records reachable ?_ inside isBlock below.le
        (resumption.ssa.operands isBlock atPc operand isOperand) ?_
      · rw [resumption.accepted.isHeader] at inside
        exact mem_regionUses.mpr ⟨id, inside, block, isBlock, mem_blockUses.mpr (Or.inr ⟨rfl, isRead⟩)⟩
      · rintro value inAll rfl
        exact region.reached value inAll isRead
  terminator := by
    intro id block' found reg used
    rcases resumption.getBlock_cases found with rfl | ⟨-, inside⟩
    · obtain ⟨block, isEntry, -, jumps, -⟩ := resumption.atEntry
      cases found.symm.trans isEntry
      rw [jumps] at used
      cases used
    · obtain ⟨block, isBlock⟩ := exists_block inside
      obtain ⟨other, inVariant, region⟩ := resumption.getBlock_region inside isBlock
      cases found.symm.trans inVariant
      rw [region.terminator, IrTerminator.reads_renameUses] at used
      obtain ⟨operand, isOperand, rfl⟩ := List.mem_map.mp used
      have isRead : reads block operand = true :=
        reads_iff.mpr (Or.inr (mem_terminatorUses isOperand))
      have sameLength : block'.instructions.length = block.instructions.length := by
        rw [region.instructions, List.length_map]
      rw [sameLength]
      refine resumption.available_renamed records reachable ?_ inside isBlock le_rfl
        (resumption.ssa.terminator isBlock operand isOperand) ?_
      · rw [resumption.accepted.isHeader] at inside
        exact mem_regionUses.mpr ⟨id, inside, block, isBlock, mem_blockUses.mpr (Or.inr ⟨rfl, isRead⟩)⟩
      · rintro value inAll rfl
        exact region.reached value inAll isRead
  phis := by
    intro id block' source sourceBlock phi reg found member listed isSource
    rcases resumption.getBlock_cases found with rfl | ⟨-, inside⟩
    · obtain ⟨block, isEntry, -, -, noPhis⟩ := resumption.atEntry
      cases found.symm.trans isEntry
      rw [noPhis] at member
      cases member
    obtain ⟨block, isBlock⟩ := exists_block inside
    obtain ⟨other, inVariant, region⟩ := resumption.getBlock_region inside isBlock
    cases found.symm.trans inVariant
    obtain ⟨own, phis, related⟩ := region.phis
    rw [phis] at member
    rcases List.mem_append.mp member with isOwn | isMerge
    · obtain ⟨index, below, rfl⟩ := List.mem_iff_getElem.mp isOwn
      have isPhi := related.get (related.length_eq ▸ below) below
      exact resumption.ownPhi_operand records reachable inside isBlock region
        (List.get_mem _ ⟨index, related.length_eq ▸ below⟩) isPhi listed isSource
    · exact resumption.mergePhi_operand records reachable isMerge listed isSource

end Variant

end Rayzor.Osr
