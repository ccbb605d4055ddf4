import Rayzor.Osr.Carried

/-!
Contract: the variant block by block, in terms of the function it resumes.
-/

namespace Rayzor.Osr

open Ir Library Analysis Interp Ssa

/-- The registers a load takes that the function did not have. -/
def SlotLoad.fresh (load : SlotLoad) : List IrId :=
  [load.offset, load.addr] ++
    match load.slot.param, load.merged with
    | .headerPhi _, _ => [load.dest]
    | .live _, some merged => [load.dest, merged.2]
    | .live _, none => []

/-- Where a load leaves its value: phis and values defined again arrive under
registers of their own. -/
structure LoadedAs (redefinedIn : IrId → Option IrBlockId) (load : SlotLoad) : Prop where
  phi : ∀ reg, load.slot.param = .headerPhi reg → load.merged = none
  again : ∀ reg block, load.slot.param = .live reg → redefinedIn reg = some block →
    ∃ phi, load.merged = some (block, phi)
  given : ∀ reg, load.slot.param = .live reg → redefinedIn reg = none →
    load.merged = none ∧ load.dest = reg

structure Loads (redefinedIn : IrId → Option IrBlockId) (next : IrId)
    (slots : List (OsrSlot × Nat)) (loads : List SlotLoad) (free : IrId) : Prop where
  slots : loads.map (fun load => (load.slot, load.place)) = slots
  loadedAs : ∀ load ∈ loads, LoadedAs redefinedIn load
  advanced : next ≤ free
  within : ∀ reg ∈ loads.flatMap SlotLoad.fresh, next ≤ reg ∧ reg < free
  increasing : (loads.flatMap SlotLoad.fresh).Pairwise (· < ·)

theorem loadSlot_spec (redefinedIn : IrId → Option IrBlockId) (next : IrId) (slot : OsrSlot)
    (place : Nat) :
    Loads redefinedIn next [(slot, place)] [(loadSlot redefinedIn next slot place).1]
      (loadSlot redefinedIn next slot place).2 := by
  obtain ⟨param, ty⟩ := slot
  cases param with
  | headerPhi reg =>
      refine ⟨rfl, ?_, ?_, ?_, ?_⟩
      · simp only [List.mem_singleton, forall_eq]
        exact ⟨fun _ _ => rfl, fun _ _ isLive => (nomatch isLive), fun _ isLive => (nomatch isLive)⟩
      all_goals simp [loadSlot, SlotLoad.fresh]
  | live reg =>
      cases recorded : redefinedIn reg with
      | none =>
          refine ⟨by simp [loadSlot, recorded], ?_, ?_, ?_, ?_⟩
          · simp only [List.mem_singleton, forall_eq]
            refine ⟨?_, ?_, ?_⟩
            · simp [loadSlot, recorded]
            · intro other block isLive again
              simp only [loadSlot, recorded] at isLive
              cases isLive
              rw [recorded] at again
              cases again
            · intro other isLive _
              simp only [loadSlot, recorded] at isLive ⊢
              cases isLive
              exact ⟨trivial, rfl⟩
          all_goals simp [loadSlot, recorded, SlotLoad.fresh]
      | some block =>
          refine ⟨by simp [loadSlot, recorded], ?_, ?_, ?_, ?_⟩
          · simp only [List.mem_singleton, forall_eq]
            refine ⟨?_, ?_, ?_⟩
            · simp [loadSlot, recorded]
            · intro other block' isLive again
              simp only [loadSlot, recorded] at isLive ⊢
              cases isLive
              rw [recorded] at again
              cases again
              exact ⟨_, rfl⟩
            · intro other isLive notAgain
              simp only [loadSlot, recorded] at isLive
              cases isLive
              rw [recorded] at notAgain
              cases notAgain
          all_goals simp [loadSlot, recorded, SlotLoad.fresh]

theorem loadSlots_spec (redefinedIn : IrId → Option IrBlockId) (next : IrId)
    (slots : List (OsrSlot × Nat)) :
    Loads redefinedIn next slots (loadSlots redefinedIn next slots).1
      (loadSlots redefinedIn next slots).2 := by
  induction slots generalizing next with
  | nil => exact ⟨rfl, by simp [loadSlots], le_refl _, by simp [loadSlots], by simp [loadSlots]⟩
  | cons entry rest ih =>
      obtain ⟨slot, place⟩ := entry
      have first := loadSlot_spec redefinedIn next slot place
      have others := ih (loadSlot redefinedIn next slot place).2
      have firstFresh := first.within
      simp only [List.flatMap_cons, List.flatMap_nil, List.append_nil] at firstFresh
      have firstIncreasing := first.increasing
      simp only [List.flatMap_cons, List.flatMap_nil, List.append_nil] at firstIncreasing
      refine ⟨?_, ?_, ?_, ?_, ?_⟩
      · have firstSlot := first.slots
        simp only [List.map_cons, List.map_nil, List.cons.injEq, and_true] at firstSlot
        simp only [loadSlots, List.map_cons, others.slots, firstSlot]
      · intro load member
        rcases List.mem_cons.mp member with rfl | later
        · exact first.loadedAs _ (List.mem_singleton_self _)
        · exact others.loadedAs load later
      · exact first.advanced.trans others.advanced
      · intro reg member
        rcases List.mem_append.mp member with here | later
        · have bounds := firstFresh reg here
          exact ⟨bounds.1, lt_of_lt_of_le bounds.2 others.advanced⟩
        · have bounds := others.within reg later
          exact ⟨first.advanced.trans bounds.1, bounds.2⟩
      · refine List.pairwise_append.mpr ⟨firstIncreasing, others.increasing, ?_⟩
        intro reg here other later
        exact lt_of_lt_of_le (firstFresh reg here).2 (others.within other later).1

def mentioned (block : IrBasicBlock) : List IrId :=
  block.definitions ++ block.phiNodes.flatMap (fun phi => phi.incoming.map Prod.snd) ++
    (block.instructions.flatMap (·.uses) ++ terminatorUses block.terminator)

/-- The counters of a function are ahead of its blocks and registers, as
allocating from them keeps them. -/
structure Numbered (function : IrFunction) : Prop where
  blocks : ∀ {id block}, function.getBlock id = some block → id < function.cfg.nextBlockId
  registers : ∀ {id block}, function.getBlock id = some block → ∀ reg ∈ mentioned block,
    reg < function.nextRegId

section Entered

variable {function : IrFunction} {result : OsrLayout} {id : IrBlockId}

def osrEntryId (function : IrFunction) : IrBlockId := function.cfg.nextBlockId

def phiValues (function : IrFunction) (result : OsrLayout) : List IrId :=
  (layoutLoads function result).1.filterMap (·.phiValue)

def enteredBlock (function : IrFunction) (result : OsrLayout) (id : IrBlockId)
    (block : IrBasicBlock) : IrBasicBlock :=
  let kept := keepEdgesFrom (blocksReachableFrom function result.header) block
  if id = result.header then enterFrom (osrEntryId function) (phiValues function result) kept
  else kept

/-- The blocks of the variant before predecessor lists are computed. -/
def enteredCfg (function : IrFunction) (result : OsrLayout) : IrControlFlowGraph where
  blocks :=
    (((function.cfg.blocks.filter fun id _ =>
        (blocksReachableFrom function result.header).contains id).mapValues fun _ block =>
        keepEdgesFrom (blocksReachableFrom function result.header) block).modify result.header
      (enterFrom (osrEntryId function) (phiValues function result))).insert (osrEntryId function)
        (osrEntry function result)
  entryBlock := osrEntryId function
  nextBlockId := osrEntryId function + 1

theorem cfg_entered :
    (enteredVariant function result).cfg = (enteredCfg function result).recomputePredecessors := rfl

theorem getBlock_enteredCfg (id : IrBlockId) :
    (enteredCfg function result).getBlock id =
      if id = osrEntryId function then some (osrEntry function result)
      else if id ∈ blocksReachableFrom function result.header then
        (function.getBlock id).map (enteredBlock function result id)
      else none := by
  rw [IrControlFlowGraph.getBlock, enteredCfg, OrdMap.get?_insert, OrdMap.get?_modify,
    OrdMap.get?_mapValues, OrdMap.get?_filter]
  split_ifs with isEntry isHeader inside inside
  · rfl
  · rw [IrFunction.getBlock, IrControlFlowGraph.getBlock]
    have keeps : ∀ block : IrBasicBlock, enteredBlock function result id block =
        enterFrom (osrEntryId function) (phiValues function result)
          (keepEdgesFrom (blocksReachableFrom function result.header) block) :=
      fun block => if_pos isHeader
    cases function.cfg.blocks.get? id <;> simp [inside, Option.filter, keeps]
  · cases function.cfg.blocks.get? id <;> simp [inside, Option.filter]
  · rw [IrFunction.getBlock, IrControlFlowGraph.getBlock]
    have keeps : ∀ block : IrBasicBlock, enteredBlock function result id block =
        keepEdgesFrom (blocksReachableFrom function result.header) block :=
      fun block => if_neg isHeader
    cases function.cfg.blocks.get? id <;> simp [inside, Option.filter, keeps]
  · cases function.cfg.blocks.get? id <;> simp [inside, Option.filter]

theorem getBlock_enteredVariant (id : IrBlockId) :
    (enteredVariant function result).getBlock id =
      ((enteredCfg function result).getBlock id).map fun block =>
        { block with predecessors := sourcesOf (enteredCfg function result).edges [] id } := by
  rw [IrFunction.getBlock, cfg_entered, getBlock_recompute]

theorem terminator_enteredBlock (block : IrBasicBlock) :
    (enteredBlock function result id block).terminator = block.terminator := by
  unfold enteredBlock
  split_ifs <;> rfl

theorem instructions_enteredBlock (block : IrBasicBlock) :
    (enteredBlock function result id block).instructions = block.instructions := by
  unfold enteredBlock
  split_ifs <;> rfl

end Entered

section Uses

variable {function : IrFunction} {region : List IrBlockId} {reg : IrId} {at_ : IrBlockId}

theorem mem_blockUses {id : IrBlockId} {block : IrBasicBlock} :
    (reg, at_) ∈ blockUses region id block ↔
      (∃ phi ∈ block.phiNodes, (at_, reg) ∈ phi.incoming ∧ at_ ∈ region) ∨
      (at_ = id ∧ reads block reg = true) := by
  simp only [blockUses, List.mem_append, List.mem_flatMap, List.mem_map, List.mem_filter,
    List.contains_eq_mem, decide_eq_true_eq, Prod.exists, Prod.mk.injEq, reads_iff]
  constructor
  · rintro (⟨phi, member, _, _, ⟨listed, inside⟩, rfl, rfl⟩ | ⟨_, read, rfl, rfl⟩)
    · exact Or.inl ⟨phi, member, listed, inside⟩
    · exact Or.inr ⟨rfl, read⟩
  · rintro (⟨phi, member, listed, inside⟩ | ⟨rfl, read⟩)
    · exact Or.inl ⟨phi, member, _, _, ⟨listed, inside⟩, rfl, rfl⟩
    · exact Or.inr ⟨_, read, rfl, rfl⟩

theorem mem_regionUses : (reg, at_) ∈ regionUses function region ↔
    ∃ id ∈ region, ∃ block, function.getBlock id = some block ∧
      (reg, at_) ∈ blockUses region id block := by
  simp only [regionUses, List.mem_flatMap]
  refine exists_congr fun id => and_congr_right fun _ => ?_
  cases function.getBlock id <;> simp

theorem mentioned_of_reads {block : IrBasicBlock} (isRead : reads block reg = true) :
    reg ∈ mentioned block := by
  rw [reads_iff] at isRead
  refine List.mem_append_right _ (List.mem_append.mpr (isRead.imp_left ?_))
  rintro ⟨inst, member, used⟩
  exact List.mem_flatMap.mpr ⟨inst, member, used⟩

theorem mentioned_of_incoming {block : IrBasicBlock} {phi : IrPhiNode}
    (member : phi ∈ block.phiNodes) (listed : (at_, reg) ∈ phi.incoming) :
    reg ∈ mentioned block := by
  refine List.mem_append_left _ (List.mem_append_right _ ?_)
  exact List.mem_flatMap.mpr ⟨phi, member, List.mem_map.mpr ⟨_, listed, rfl⟩⟩

theorem mentioned_of_phi {block : IrBasicBlock} {phi : IrPhiNode}
    (member : phi ∈ block.phiNodes) : phi.dest ∈ mentioned block :=
  List.mem_append_left _ (List.mem_append_left _
    (List.mem_append_left _ (List.mem_map_of_mem member)))

theorem mentioned_of_writes {block : IrBasicBlock} {inst : IrInstruction}
    (member : inst ∈ block.instructions) (writes : inst.writes = some reg) :
    reg ∈ mentioned block :=
  List.mem_append_left _ (List.mem_append_left _
    (List.mem_append_right _ (List.mem_filterMap.mpr ⟨inst, member, writes⟩)))

end Uses

def carrierOf (function : IrFunction) (result : OsrLayout) : Carrier where
  variant := enteredVariant function result
  header := result.header
  entry := osrEntryId function
  domtree := DominatorTree.compute (enteredVariant function result)

def redefinedOf (function : IrFunction) (result : OsrLayout) : List Redefined :=
  (layoutLoads function result).1.filterMap (·.redefined)

/-- The block a register is recorded under, if that is one of the region. -/
def recordedInside (function : IrFunction) (result : OsrLayout) (reg : IrId) : Option IrBlockId :=
  ((definitionBlocks function).get? reg).filter fun block =>
    (blocksReachableFrom function result.header).contains block

structure Resumption (function : IrFunction) (header : IrBlockId) (relaxed : Bool)
    (result : OsrLayout) (headerBlock : IrBasicBlock) (lives : List OsrSlot)
    (variant : IrFunction) : Prop where
  ssa : SsaForm function
  edges : PredecessorsConsistent function
  numbered : Numbered function
  accepted : Accepted function header relaxed result headerBlock lives
  carried : CarriedTo (carrierOf function result) (redefinedOf function result) variant

section Setting

variable {function variant : IrFunction} {header : IrBlockId} {relaxed : Bool}
  {result : OsrLayout} {headerBlock : IrBasicBlock} {lives : List OsrSlot}

theorem loads_spec (function : IrFunction) (result : OsrLayout) :
    Loads (recordedInside function result) (function.nextRegId + 1)
      (result.slots.zip result.frame.offsets) (layoutLoads function result).1
      (layoutLoads function result).2 :=
  loadSlots_spec _ _ _

theorem redefined_sublist (loads : List SlotLoad) :
    ((loads.filterMap (·.redefined)).map (·.reg)).Sublist
      (loads.map ((·.param.reg) ∘ (·.slot))) := by
  induction loads with
  | nil => exact .slnil
  | cons load rest ih =>
      cases isMerged : load.merged with
      | none =>
          rw [List.filterMap_cons_none (by simp [SlotLoad.redefined, isMerged]), List.map_cons]
          exact ih.cons _
      | some merged =>
          rw [List.filterMap_cons_some (by simp [SlotLoad.redefined, isMerged]; rfl), List.map_cons,
            List.map_cons]
          exact ih.cons_cons _

theorem fresh_ge {load : SlotLoad} (member : load ∈ (layoutLoads function result).1)
    {reg : IrId} (isFresh : reg ∈ load.fresh) : function.nextRegId < reg :=
  ((loads_spec function result).within reg (List.mem_flatMap.mpr ⟨load, member, isFresh⟩)).1

theorem redefined_spec {value : Redefined}
    (member : value ∈ redefinedOf function result) :
    ∃ load ∈ (layoutLoads function result).1, load.slot.param = .live value.reg ∧
      recordedInside function result value.reg = some value.block ∧
      value.arrived = load.dest ∧ value.ty = load.slot.ty ∧
      load.merged = some (value.block, value.phi) ∧ value.arrived ∈ load.fresh ∧
      value.phi ∈ load.fresh := by
  obtain ⟨load, inLoads, made⟩ := List.mem_filterMap.mp member
  obtain ⟨merged, isMerged, rfl⟩ := Option.map_eq_some_iff.mp made
  have loadedAs := (loads_spec function result).loadedAs load inLoads
  cases isParam : load.slot.param with
  | headerPhi reg =>
      rw [loadedAs.phi reg isParam] at isMerged
      cases isMerged
  | live reg =>
      cases recorded : recordedInside function result reg with
      | none =>
          rw [(loadedAs.given reg isParam recorded).1] at isMerged
          cases isMerged
      | some block =>
          obtain ⟨phi, again⟩ := loadedAs.again reg block isParam recorded
          rw [again] at isMerged
          cases isMerged
          refine ⟨load, inLoads, ?_, ?_, rfl, rfl, again, ?_, ?_⟩
          · simp [isParam, OsrParam.reg]
          · simpa [isParam, OsrParam.reg] using recorded
          · simp [SlotLoad.fresh, isParam, again]
          · simp [SlotLoad.fresh, isParam, again]

section Accepted

variable (accepted : Accepted function header relaxed result headerBlock lives)
include accepted

theorem Accepted.mem_region (edges : PredecessorsConsistent function) {id : IrBlockId} :
    id ∈ blocksReachableFrom function result.header ↔ Reaches function header id := by
  rw [accepted.isHeader]
  exact mem_region_iff edges ⟨headerBlock, accepted.isBlock⟩

theorem Accepted.slot_mentioned {slot : OsrSlot} (member : slot ∈ result.slots) :
    ∃ id block, function.getBlock id = some block ∧ slot.param.reg ∈ mentioned block := by
  rw [accepted.slots] at member
  rcases List.mem_append.mp member with isPhi | isLive
  · obtain ⟨phi, inHeader, rfl⟩ := List.mem_map.mp isPhi
    exact ⟨header, headerBlock, accepted.isBlock, mentioned_of_phi inHeader⟩
  · obtain ⟨use, used, isLive, -⟩ := accepted.covers.asked slot isLive
    obtain ⟨id, -, block, isBlock, read⟩ := mem_regionUses.mp used
    refine ⟨id, block, isBlock, ?_⟩
    rw [isLive]
    rcases mem_blockUses.mp read with ⟨phi, inBlock, listed, -⟩ | ⟨-, read⟩
    · exact mentioned_of_incoming inBlock listed
    · exact mentioned_of_reads read

theorem Accepted.slot_lt (numbered : Numbered function) {slot : OsrSlot}
    (member : slot ∈ result.slots) : slot.param.reg < function.nextRegId := by
  obtain ⟨id, block, isBlock, inBlock⟩ := accepted.slot_mentioned member
  exact numbered.registers isBlock _ inBlock

theorem Accepted.slots_distinct (ssa : SsaForm function) :
    (result.slots.map (·.param.reg)).Nodup := by
  rw [accepted.slots]
  refine accepted.covers.distinct ?_
  have dests : (phiSlots headerBlock).map (·.param.reg) = headerBlock.phiNodes.map (·.dest) := by
    rw [phiSlots, List.map_map]
    rfl
  rw [dests]
  exact ssa.phisDistinct accepted.isBlock

theorem Accepted.loads_slots :
    (layoutLoads function result).1.map (·.slot) = result.slots := by
  have firsts : (layoutLoads function result).1.map (·.slot) =
      ((layoutLoads function result).1.map fun load => (load.slot, load.place)).map Prod.fst := by
    rw [List.map_map]
    rfl
  rw [firsts, (loads_spec function result).slots, List.map_fst_zip]
  rw [accepted.framed, length_forTypes, List.length_map]

theorem Accepted.load_slot {load : SlotLoad} (member : load ∈ (layoutLoads function result).1) :
    load.slot ∈ result.slots := by
  rw [← accepted.loads_slots]
  exact List.mem_map_of_mem member

theorem Accepted.apart (ssa : SsaForm function) (numbered : Numbered function) :
    Apart (redefinedOf function result) := by
  have below : ∀ value ∈ redefinedOf function result, value.reg < function.nextRegId := by
    intro value member
    obtain ⟨load, inLoads, isLive, -⟩ := redefined_spec member
    have small := accepted.slot_lt numbered (accepted.load_slot inLoads)
    rwa [isLive] at small
  have above : ∀ value ∈ redefinedOf function result,
      function.nextRegId < value.phi ∧ function.nextRegId < value.arrived := by
    intro value member
    obtain ⟨load, inLoads, -, -, -, -, -, arrived, phi⟩ := redefined_spec member
    exact ⟨fresh_ge inLoads phi, fresh_ge inLoads arrived⟩
  refine ⟨?_, ?_, ?_⟩
  · have distinct := accepted.slots_distinct ssa
    rw [← accepted.loads_slots, List.map_map] at distinct
    exact distinct.sublist (redefined_sublist _)
  · intro value member other inside same
    exact lt_asymm (below other inside) (same ▸ (above value member).1)
  · intro value member other inside same
    exact lt_asymm (below other inside) (same ▸ (above value member).2)

end Accepted

end Setting

structure RegionPhi (function : IrFunction) (result : OsrLayout) (id : IrBlockId)
    (phi phi' : IrPhiNode) : Prop where
  dest : phi'.dest = phi.dest
  ty : phi'.ty = phi.ty
  inside : ∀ source ∈ blocksReachableFrom function result.header,
    phi'.valueFrom source = (phi.valueFrom source).map
      ((carrierOf function result).rename (redefinedOf function result) source)
  incoming : ∀ entry ∈ phi'.incoming, entry.1 ≠ osrEntryId function →
    entry.1 ∈ blocksReachableFrom function result.header ∧ ∃ reg, (entry.1, reg) ∈ phi.incoming ∧
      entry.2 = (carrierOf function result).rename (redefinedOf function result) entry.1 reg
  entered : id = result.header → ∃ load ∈ (layoutLoads function result).1,
    load.slot = { param := .headerPhi phi.dest, ty := phi.ty } ∧
      phi'.valueFrom (osrEntryId function) = some load.dest
  fromEntry : ∀ entry ∈ phi'.incoming, entry.1 = osrEntryId function →
    ∃ load ∈ (layoutLoads function result).1, entry.2 = load.dest

structure RegionBlock (function : IrFunction) (result : OsrLayout) (id : IrBlockId)
    (block block' : IrBasicBlock) : Prop where
  instructions : block'.instructions = block.instructions.map
    (·.renameUses ((carrierOf function result).rename (redefinedOf function result) id))
  kept : ∀ inst ∈ block.instructions, inst.operandsKept = true → ∀ reg ∈ inst.uses,
    (carrierOf function result).rename (redefinedOf function result) id reg = reg
  terminator : block'.terminator = block.terminator.renameUses
    ((carrierOf function result).rename (redefinedOf function result) id)
  reached : ∀ value ∈ redefinedOf function result, reads block value.reg = true →
    ((carrierOf function result).reaching value id).isSome
  phisReached : ∀ phi ∈ block.phiNodes, ∀ entry ∈ phi.incoming,
    entry.1 ∈ blocksReachableFrom function result.header →
    ∀ value ∈ redefinedOf function result, value.reg = entry.2 →
      ((carrierOf function result).reaching value entry.1).isSome
  phis : ∃ own, block'.phiNodes =
      own ++ (carrierOf function result).mergePhis (redefinedOf function result) id ∧
    List.Forall₂ (RegionPhi function result id) block.phiNodes own

theorem find?_map_snd {entries : List (IrBlockId × IrId)} (rename : IrBlockId → IrId → IrId)
    (source : IrBlockId) :
    ((entries.map fun entry => (entry.1, rename entry.1 entry.2)).find? fun entry =>
        entry.1 == source).map Prod.snd =
      ((entries.find? fun entry => entry.1 == source).map Prod.snd).map (rename source) := by
  induction entries with
  | nil => rfl
  | cons entry rest ih =>
      by_cases here : entry.1 = source
      · simp [here]
      · simp only [List.map_cons, List.find?_cons, beq_eq_false_iff_ne.mpr here]
        exact ih

theorem find?_filter_fst {entries : List (IrBlockId × IrId)} {region : List IrBlockId}
    {source : IrBlockId} (inside : source ∈ region) :
    ((entries.filter fun entry => region.contains entry.1).find? fun entry =>
        entry.1 == source) = entries.find? fun entry => entry.1 == source := by
  rw [List.find?_filter]
  refine congrArg (List.find? · entries) (funext fun entry => ?_)
  by_cases here : entry.1 = source
  · simp [here, inside]
  · simp [here]

theorem exists_block {function : IrFunction} {header id : IrBlockId}
    (inside : id ∈ blocksReachableFrom function header) :
    ∃ block, function.getBlock id = some block :=
  (OrdMap.mem_keys_iff _ _).mp (List.mem_filter.mp inside).1

theorem forall₂_zipWith {α β γ : Type} {Related : α → β → Prop} {Holds : α → γ → Prop}
    {combine : α → β → γ} {left : List α} {right : List β} (related : List.Forall₂ Related left right)
    (holds : ∀ {a b}, Related a b → Holds a (combine a b)) :
    List.Forall₂ Holds left (left.zipWith combine right) := by
  induction related with
  | nil => exact .nil
  | cons first _ ih => exact .cons (holds first) ih

section Blocks

variable {function variant : IrFunction} {header : IrBlockId} {relaxed : Bool}
  {result : OsrLayout} {headerBlock : IrBasicBlock} {lives : List OsrSlot}
  (resumption : Resumption function header relaxed result headerBlock lives variant)
include resumption

theorem Resumption.entry_notMem :
    osrEntryId function ∉ blocksReachableFrom function result.header := by
  intro inside
  obtain ⟨block, found⟩ := exists_block inside
  exact lt_irrefl _ (resumption.numbered.blocks found)

theorem Resumption.header_mem : result.header ∈ blocksReachableFrom function result.header := by
  rw [resumption.accepted.mem_region resumption.edges, resumption.accepted.isHeader]
  exact .refl

theorem Resumption.successor_mem {source target : IrBlockId}
    (inside : source ∈ blocksReachableFrom function result.header)
    (edge : BlockEdge function source target) :
    target ∈ blocksReachableFrom function result.header := by
  rw [resumption.accepted.mem_region resumption.edges] at inside ⊢
  exact inside.tail edge

theorem Resumption.atEntry : ∃ block, variant.getBlock (osrEntryId function) = some block ∧
    block.instructions = (osrEntry function result).instructions ∧
    block.terminator = .branch result.header ∧ block.phiNodes = [] := by
  have found : (carrierOf function result).variant.getBlock (osrEntryId function) =
      some { osrEntry function result with
        predecessors := sourcesOf (enteredCfg function result).edges [] (osrEntryId function) } := by
    change (enteredVariant function result).getBlock _ = _
    rw [getBlock_enteredVariant, getBlock_enteredCfg, if_pos rfl]
    rfl
  obtain ⟨block, inVariant, same, -⟩ := resumption.carried.blocks found
  rw [same rfl] at inVariant
  exact ⟨_, inVariant, rfl, rfl, rfl⟩

theorem Resumption.getBlock_cases {id : IrBlockId} {block' : IrBasicBlock}
    (found : variant.getBlock id = some block') :
    id = osrEntryId function ∨ id ≠ osrEntryId function ∧
      id ∈ blocksReachableFrom function result.header := by
  obtain ⟨block, inEntered⟩ := resumption.carried.only found
  by_cases isEntry : id = osrEntryId function
  · exact Or.inl isEntry
  · refine Or.inr ⟨isEntry, ?_⟩
    have entered : (enteredVariant function result).getBlock id = some block := inEntered
    rw [getBlock_enteredVariant, getBlock_enteredCfg, if_neg isEntry] at entered
    split_ifs at entered with inside
    · exact inside
    · cases entered

theorem Resumption.phiLoads : ∃ first, phiValues function result = first.map (·.dest) ∧
    List.Forall₂ (fun phi load => load ∈ (layoutLoads function result).1 ∧
      load.slot = { param := .headerPhi phi.dest, ty := phi.ty }) headerBlock.phiNodes first := by
  have slots := resumption.accepted.loads_slots
  rw [resumption.accepted.slots] at slots
  obtain ⟨first, others, split, firstSlots, otherSlots⟩ := List.map_eq_append_iff.mp slots
  have isPhi : List.Forall₂ (fun phi (load : SlotLoad) =>
      load.slot = { param := .headerPhi phi.dest, ty := phi.ty }) headerBlock.phiNodes first := by
    have same := List.forall₂_eq_eq_eq (α := OsrSlot) ▸ firstSlots
    rw [phiSlots, List.forall₂_map_left_iff, List.forall₂_map_right_iff] at same
    exact same.flip
  refine ⟨first, ?_, ?_⟩
  · have fromFirst : first.filterMap (·.phiValue) = first.map (·.dest) := by
      rw [← List.filterMap_eq_map]
      refine List.filterMap_congr fun load member => ?_
      obtain ⟨index, inside, rfl⟩ := List.mem_iff_getElem.mp member
      have slot := isPhi.get (isPhi.length_eq ▸ inside) inside
      simp only [List.get_eq_getElem] at slot
      simp only [SlotLoad.phiValue, slot, Function.comp_apply]
    have fromOthers : others.filterMap (·.phiValue) = [] := by
      refine List.filterMap_eq_nil_iff.mpr fun load member => ?_
      have isLive := resumption.accepted.covers.asked load.slot
        (otherSlots ▸ List.mem_map_of_mem member)
      obtain ⟨use, -, isLive, -⟩ := isLive
      simp only [SlotLoad.phiValue, isLive]
    rw [phiValues, split, List.filterMap_append, fromFirst, fromOthers, List.append_nil]
  · have inLoads : ∀ load ∈ first, load ∈ (layoutLoads function result).1 := by
      intro load member
      rw [split]
      exact List.mem_append_left _ member
    exact ((List.forall₂_and_left _ _).mpr ⟨inLoads, isPhi.flip⟩).flip

/-- A phi with the edges it keeps from inside the region, and the one from the
prologue if it is the header's. -/
structure EnteredPhi (function : IrFunction) (result : OsrLayout) (id : IrBlockId)
    (phi phi' : IrPhiNode) : Prop where
  dest : phi'.dest = phi.dest
  ty : phi'.ty = phi.ty
  incoming : ∃ new, phi'.incoming = (phi.incoming.filter fun entry =>
      (blocksReachableFrom function result.header).contains entry.1) ++ new ∧
    (id ≠ result.header → new = []) ∧
    (id = result.header → ∃ load ∈ (layoutLoads function result).1,
      load.slot = { param := .headerPhi phi.dest, ty := phi.ty } ∧
        new = [(osrEntryId function, load.dest)])

theorem Resumption.enteredPhis {id : IrBlockId} {block : IrBasicBlock}
    (isBlock : function.getBlock id = some block) :
    List.Forall₂ (EnteredPhi function result id) block.phiNodes
      (enteredBlock function result id block).phiNodes := by
  by_cases isHeader : id = result.header
  · have same : block = headerBlock := by
      rw [isHeader, resumption.accepted.isHeader, resumption.accepted.isBlock] at isBlock
      exact (Option.some.inj isBlock).symm
    subst same
    obtain ⟨first, values, loads⟩ := resumption.phiLoads
    have phis : (enteredBlock function result id block).phiNodes = block.phiNodes.zipWith
        (fun phi load => { phi with incoming := (phi.incoming.filter fun entry =>
            (blocksReachableFrom function result.header).contains entry.1) ++
              [(osrEntryId function, load.dest)] }) first := by
      simp only [enteredBlock, if_pos isHeader, enterFrom, keepEdgesFrom, values,
        List.zipWith_map]
    rw [phis]
    refine forall₂_zipWith loads fun {phi load} isLoad => ⟨rfl, rfl, _, rfl, ?_, ?_⟩
    · exact fun other => absurd isHeader other
    · exact fun _ => ⟨load, isLoad.1, isLoad.2, rfl⟩
  · have phis : (enteredBlock function result id block).phiNodes = block.phiNodes.map
        fun phi => { phi with incoming := phi.incoming.filter fun entry =>
            (blocksReachableFrom function result.header).contains entry.1 } := by
      simp only [enteredBlock, if_neg isHeader, keepEdgesFrom]
    rw [phis, List.forall₂_map_right_iff]
    refine List.forall₂_same.mpr fun phi _ => ⟨rfl, rfl, [], by simp, fun _ => rfl, ?_⟩
    exact fun same => absurd same isHeader

theorem Resumption.phiLoad_unnamed {load : SlotLoad}
    (inLoads : load ∈ (layoutLoads function result).1) {phi : IrPhiNode}
    (slot : load.slot = { param := .headerPhi phi.dest, ty := phi.ty }) :
    load.dest ∉ (redefinedOf function result).map (·.reg) := by
  intro named
  have fresh : load.dest ∈ load.fresh := by simp [SlotLoad.fresh, slot]
  obtain ⟨value, member, same⟩ := List.mem_map.mp named
  obtain ⟨other, inLoads', isLive, -⟩ := redefined_spec member
  have small := resumption.accepted.slot_lt resumption.numbered
    (resumption.accepted.load_slot inLoads')
  rw [isLive] at small
  exact lt_asymm (fresh_ge inLoads fresh) (same ▸ small)

theorem Resumption.regionPhi_of_entered {id : IrBlockId} {phi phi' : IrPhiNode}
    (entered : EnteredPhi function result id phi phi') :
    RegionPhi function result id phi
      (renamePhi ((carrierOf function result).rename (redefinedOf function result)) phi') := by
  obtain ⟨dest, ty, new, listed, elsewhere, atHeader⟩ := entered
  have inNew : ∀ entry ∈ new, entry.1 = osrEntryId function := by
    intro entry member
    by_cases isHeader : id = result.header
    · obtain ⟨load, -, -, rfl⟩ := atHeader isHeader
      rw [List.mem_singleton.mp member]
    · rw [elsewhere isHeader] at member
      cases member
  refine ⟨dest, ty, ?_, ?_, ?_, ?_⟩
  · intro source inside
    have notNew : (new.find? fun entry => entry.1 == source) = none := by
      refine List.find?_eq_none.mpr fun entry member same => ?_
      have isEntry := (beq_iff_eq.mp same).symm.trans (inNew entry member)
      exact resumption.entry_notMem (isEntry ▸ inside)
    rw [IrPhiNode.valueFrom, renamePhi, find?_map_snd, listed, List.find?_append, notNew,
      Option.or_none, find?_filter_fst inside]
    rfl
  · intro entry member notEntry
    obtain ⟨⟨source, reg⟩, inside, rfl⟩ := List.mem_map.mp member
    rw [listed] at inside
    rcases List.mem_append.mp inside with kept | isNew
    · obtain ⟨inPhi, within⟩ := List.mem_filter.mp kept
      simp only [List.contains_eq_mem, decide_eq_true_eq] at within
      exact ⟨within, reg, inPhi, rfl⟩
    · exact absurd (inNew _ isNew) notEntry
  · intro isHeader
    obtain ⟨load, inLoads, slot, rfl⟩ := atHeader isHeader
    have notKept : (phi.incoming.filter fun entry =>
        (blocksReachableFrom function result.header).contains entry.1).find?
          (fun entry => entry.1 == osrEntryId function) = none := by
      refine List.find?_eq_none.mpr fun entry member same => ?_
      have within := (List.mem_filter.mp member).2
      simp only [List.contains_eq_mem, decide_eq_true_eq, beq_iff_eq.mp same] at within
      exact resumption.entry_notMem within
    refine ⟨load, inLoads, slot, ?_⟩
    rw [IrPhiNode.valueFrom, renamePhi, find?_map_snd, listed, List.find?_append, notKept]
    simp [rename_of_notMem (resumption.phiLoad_unnamed inLoads slot)]
  · intro entry member isEntry
    obtain ⟨⟨source, reg⟩, inside, rfl⟩ := List.mem_map.mp member
    rw [listed] at inside
    rcases List.mem_append.mp inside with kept | isNew
    · have within := (List.mem_filter.mp kept).2
      simp only [List.contains_eq_mem, decide_eq_true_eq] at within
      exact absurd (isEntry ▸ within) resumption.entry_notMem
    · by_cases isHeader : id = result.header
      · obtain ⟨load, inLoads, slot, rfl⟩ := atHeader isHeader
        cases List.mem_singleton.mp isNew
        exact ⟨load, inLoads, rename_of_notMem (resumption.phiLoad_unnamed inLoads slot)⟩
      · rw [elsewhere isHeader] at isNew
        cases isNew

theorem Resumption.regionPhis {id : IrBlockId} {block : IrBasicBlock}
    (isBlock : function.getBlock id = some block) :
    List.Forall₂ (RegionPhi function result id) block.phiNodes
      ((enteredBlock function result id block).phiNodes.map
        (renamePhi ((carrierOf function result).rename (redefinedOf function result)))) := by
  rw [List.forall₂_map_right_iff]
  exact (resumption.enteredPhis isBlock).imp fun _ _ => resumption.regionPhi_of_entered

theorem Resumption.getBlock_region {id : IrBlockId} {block : IrBasicBlock}
    (inside : id ∈ blocksReachableFrom function result.header)
    (isBlock : function.getBlock id = some block) :
    ∃ block', variant.getBlock id = some block' ∧ RegionBlock function result id block block' := by
  have notEntry : id ≠ osrEntryId function := fun same => resumption.entry_notMem (same ▸ inside)
  have found : (carrierOf function result).variant.getBlock id =
      some { enteredBlock function result id block with
        predecessors := sourcesOf (enteredCfg function result).edges [] id } := by
    change (enteredVariant function result).getBlock _ = _
    rw [getBlock_enteredVariant, getBlock_enteredCfg, if_neg notEntry, if_pos inside, isBlock]
    rfl
  obtain ⟨block', inVariant, -, elsewhere⟩ := resumption.carried.blocks found
  have carried := elsewhere notEntry
  have sameInstructions : (enteredBlock function result id block).instructions =
      block.instructions := instructions_enteredBlock block
  have sameTerminator : (enteredBlock function result id block).terminator = block.terminator :=
    terminator_enteredBlock block
  refine ⟨block', inVariant, ?_, ?_, ?_, ?_, ?_, ?_⟩
  · rw [carried.instructions]
    exact congrArg (List.map _) sameInstructions
  · intro inst member
    exact carried.kept inst (sameInstructions ▸ member)
  · rw [carried.terminator]
    exact congrArg (IrTerminator.renameUses _) sameTerminator
  · intro value member isRead
    refine carried.reached value member ?_
    rw [reads_iff] at isRead ⊢
    exact sameInstructions.symm ▸ sameTerminator.symm ▸ isRead
  · intro phi member entry listed within value inAll same
    have entered := resumption.enteredPhis isBlock
    obtain ⟨index, isPhi, rfl⟩ := List.mem_iff_getElem.mp member
    obtain ⟨-, -, new, incoming, -⟩ := entered.get isPhi (entered.length_eq ▸ isPhi)
    refine carried.phisReached _ (List.get_mem _ ⟨index, entered.length_eq ▸ isPhi⟩) entry ?_
      value inAll same
    rw [incoming]
    refine List.mem_append_left _ (List.mem_filter.mpr ⟨listed, ?_⟩)
    simpa using within
  · exact ⟨_, carried.phis, resumption.regionPhis isBlock⟩

end Blocks

end Rayzor.Osr
