import Rayzor.Interp.Locality
import Rayzor.Osr.Given

/-!
Contract: a variant decodes what the function decodes.
-/

namespace Rayzor.Osr

open Ir Library Analysis Interp Ssa

/-- Somewhere in the region the register is read with the value it had at the
header. -/
def HandedOver (function : IrFunction) (header : IrBlockId) (relaxed : Bool) (reg : IrId) : Prop :=
  ∃ use ∈ regionUses function (blocksReachableFrom function header), use.1 = reg ∧
    (survey function header relaxed).needsSlot use.1 use.2 = some true

/-- What is handed over has a register type, the only one a slot is sure to keep.
A struct that is handed over and taken apart in the region comes from outside,
and is found there under the type it is recorded with. -/
structure TypesHold (function : IrFunction) (header : IrBlockId) (relaxed : Bool) : Prop where
  recorded : ∀ {reg}, HandedOver function header relaxed reg → (regType function reg).isSome
  takenApart : ∀ {id block dest aggregate indices},
    id ∈ blocksReachableFrom function header → function.getBlock id = some block →
    .extractValue dest aggregate indices ∈ block.instructions →
    HandedOver function header relaxed aggregate →
    (∀ inner ∈ blocksReachableFrom function header, ¬WrittenIn function aggregate inner) ∧
      aggregateType function aggregate =
        (localType function aggregate <|> regType function aggregate)

theorem Loads.load_unique {redefinedIn : IrId → Option IrBlockId} {next free : IrId}
    {slots : List (OsrSlot × Nat)} {loads : List SlotLoad}
    (isLoads : Loads redefinedIn next slots loads free) {first second : SlotLoad}
    (inFirst : first ∈ loads) (inSecond : second ∈ loads) {reg : IrId} (isFirst : reg ∈ first.fresh)
    (isSecond : reg ∈ second.fresh) : first = second := by
  by_contra different
  have increasing := (List.pairwise_flatMap.mp isLoads.increasing).2
  have apart : loads.Pairwise fun left right => ∀ reg ∈ left.fresh, reg ∉ right.fresh :=
    increasing.imp fun below reg inLeft inRight => lt_irrefl _ (below reg inLeft reg inRight)
  have symmetric : Std.Symm fun left right : SlotLoad => ∀ reg ∈ left.fresh, reg ∉ right.fresh :=
    ⟨fun _ _ apart reg inRight inLeft => apart reg inLeft inRight⟩
  exact apart.forall inFirst inSecond different reg isFirst isSecond

theorem Loads.fresh_distinct {redefinedIn : IrId → Option IrBlockId} {next free : IrId}
    {slots : List (OsrSlot × Nat)} {loads : List SlotLoad}
    (isLoads : Loads redefinedIn next slots loads free) {load : SlotLoad} (inLoads : load ∈ loads) :
    load.fresh.Nodup :=
  ((List.pairwise_flatMap.mp isLoads.increasing).1 load inLoads).imp ne_of_lt

/-- A register the prologue types is one it takes, or a slot's own. -/
theorem types_cases {redefinedIn : IrId → Option IrBlockId} {load : SlotLoad}
    (loadedAs : LoadedAs redefinedIn load) {reg : IrId} {ty : IrType}
    (listed : (reg, ty) ∈ load.types) :
    reg ∈ load.fresh ∨ load.slot.param = .live reg ∧ ty = load.slot.ty ∧ load.dest = reg := by
  cases isParam : load.slot.param with
  | headerPhi other =>
      have unmerged := loadedAs.phi other isParam
      simp only [SlotLoad.types, unmerged, Option.toList_none, List.map_nil, List.nil_append,
        List.mem_cons, Prod.mk.injEq, List.not_mem_nil, or_false] at listed
      refine Or.inl ?_
      simp only [SlotLoad.fresh, isParam, List.mem_append, List.mem_cons, List.not_mem_nil,
        or_false]
      tauto
  | live other =>
      cases recorded : redefinedIn other with
      | none =>
          obtain ⟨unmerged, isOwn⟩ := loadedAs.given other isParam recorded
          simp only [SlotLoad.types, unmerged, Option.toList_none, List.map_nil, List.nil_append,
            List.mem_cons, Prod.mk.injEq, List.not_mem_nil, or_false] at listed
          simp only [SlotLoad.fresh, isParam, unmerged, List.append_nil, List.mem_cons,
            List.not_mem_nil, or_false, OsrParam.live.injEq]
          rcases listed with ⟨rfl, -⟩ | ⟨rfl, -⟩ | ⟨rfl, rfl⟩
          · exact Or.inl (Or.inl rfl)
          · exact Or.inl (Or.inr rfl)
          · exact Or.inr ⟨isOwn.symm, rfl, rfl⟩
      | some block =>
          obtain ⟨phi, isMerged⟩ := loadedAs.again other block isParam recorded
          simp only [SlotLoad.types, isMerged, Option.toList_some, List.map_cons, List.map_nil,
            List.cons_append, List.nil_append, List.mem_cons, Prod.mk.injEq, List.not_mem_nil,
            or_false] at listed
          refine Or.inl ?_
          simp only [SlotLoad.fresh, isParam, isMerged, List.mem_append, List.mem_cons,
            List.not_mem_nil, or_false]
          tauto

theorem loadedIn_eq_none {aggregate : IrId} {block : IrBasicBlock}
    (absent : aggregate ∉ block.definitions) : loadedIn aggregate block = none := by
  rw [← Option.not_isSome_iff_eq_none]
  intro loaded
  obtain ⟨ty, isLoaded⟩ := Option.isSome_iff_exists.mp loaded
  obtain ⟨ptr, member⟩ := loadedIn_eq_some isLoaded
  exact absent (List.mem_append_right _ (List.mem_filterMap.mpr ⟨_, member, rfl⟩))

theorem loadedIn_renamed (rename : IrId → IrId) (aggregate : IrId) (block : IrBasicBlock)
    {block' : IrBasicBlock}
    (renamed : block'.instructions = block.instructions.map (·.renameUses rename)) :
    loadedIn aggregate block' = loadedIn aggregate block := by
  rw [loadedIn, renamed, List.findSome?_map]
  refine congrArg (List.findSome? · block.instructions) (funext fun inst => ?_)
  cases inst <;> rfl

theorem phi_ne_own {function : IrFunction} {result : OsrLayout}
    {value : Redefined} (member : value ∈ redefinedOf function result)
    {reg : IrId} (own : reg < function.nextRegId) : value.phi ≠ reg := by
  obtain ⟨load, inLoads, -, -, -, -, -, -, isFresh⟩ := redefined_spec member
  rintro rfl
  exact lt_asymm own (fresh_ge inLoads isFresh)

theorem findSome?_eq_some_of_only {α β : Type} {list : List α} {find : α → Option β} {found : β}
    (hit : ∃ entry ∈ list, find entry = some found)
    (only : ∀ entry ∈ list, ∀ other, find entry = some other → other = found) :
    list.findSome? find = some found := by
  obtain ⟨entry, member, isFound⟩ := hit
  cases first : list.findSome? find with
  | none => exact absurd (List.findSome?_eq_none_iff.mp first entry member) (by simp [isFound])
  | some other =>
      obtain ⟨entry', member', isOther⟩ := List.exists_of_findSome?_eq_some first
      rw [only entry' member' other isOther]

theorem load_of_entry {function : IrFunction} {result : OsrLayout} {reg ptr : IrId} {ty : IrType}
    (own : reg < function.nextRegId)
    (member : .load reg ptr ty ∈ (osrEntry function result).instructions) :
    ∃ load ∈ (layoutLoads function result).1, load.slot.param = .live reg ∧ load.slot.ty = ty := by
  obtain ⟨load, inLoads, isCode⟩ := List.mem_flatMap.mp member
  simp only [SlotLoad.code, List.mem_cons, List.not_mem_nil, or_false, reduceCtorEq, false_or,
    IrInstruction.load.injEq] at isCode
  obtain ⟨isDest, -, isTy⟩ := isCode
  have listed : (reg, ty) ∈ load.types := by simp [SlotLoad.types, isDest, isTy]
  rcases types_cases ((loads_spec function result).loadedAs load inLoads) listed with
    isFresh | ⟨isLive, -, -⟩
  · exact absurd own (lt_asymm (fresh_ge inLoads isFresh))
  · exact ⟨load, inLoads, isLive, isTy.symm⟩

section Variant

variable {function variant : IrFunction} {header : IrBlockId} {relaxed : Bool}
  {result : OsrLayout} {headerBlock : IrBasicBlock} {lives : List OsrSlot}
  (resumption : Resumption function header relaxed result headerBlock lives variant)
include resumption

theorem Resumption.live_handedOver {slot : OsrSlot} (member : slot ∈ result.slots) {reg : IrId}
    (isLive : slot.param = .live reg) : HandedOver function header relaxed reg ∧
      slotType function relaxed reg = some slot.ty := by
  rw [resumption.accepted.slots] at member
  rcases List.mem_append.mp member with isPhi | inLives
  · obtain ⟨other, -, rfl⟩ := List.mem_map.mp isPhi
    cases isLive
  · obtain ⟨use, used, isUse, needed, typed, -⟩ := resumption.accepted.covers.asked slot inLives
    cases isUse.symm.trans isLive
    exact ⟨⟨use, used, rfl, needed⟩, typed⟩

theorem Resumption.slot_type (types : TypesHold function header relaxed) {slot : OsrSlot}
    (member : slot ∈ result.slots) {reg : IrId} (isLive : slot.param = .live reg) :
    regType function reg = some slot.ty := by
  obtain ⟨handed, typed⟩ := resumption.live_handedOver member isLive
  obtain ⟨ty, recorded⟩ := Option.isSome_iff_exists.mp (types.recorded handed)
  rw [recorded, ← typed]
  exact (slotType_of_recorded recorded).symm

theorem Resumption.registerTypes : variant.registerTypes =
    ((layoutLoads function result).1.flatMap (·.types)).foldl
      (fun types entry => types.insert entry.1 entry.2)
      (function.registerTypes.insert (framePtr function) (.ptr .i8)) := by
  rw [resumption.carried.rest]
  rfl

theorem Resumption.regType_own (types : TypesHold function header relaxed) {reg : IrId}
    (own : reg < function.nextRegId) : regType variant reg = regType function reg := by
  have before : (function.registerTypes.insert (framePtr function) (.ptr .i8)).get? reg =
      function.registerTypes.get? reg :=
    OrdMap.get?_insert_of_ne _ _ (ne_of_lt own)
  have settled : ∀ {load : SlotLoad} {ty : IrType}, load ∈ (layoutLoads function result).1 →
      (reg, ty) ∈ load.types → regType function reg = some ty := by
    intro load ty inLoads listed
    rcases types_cases ((loads_spec function result).loadedAs load inLoads) listed with
      isFresh | ⟨isLive, rfl, -⟩
    · exact absurd own (lt_asymm (fresh_ge inLoads isFresh))
    · exact resumption.slot_type types (resumption.accepted.load_slot inLoads) isLive
  rw [regType, resumption.registerTypes]
  by_cases listed : reg ∈ ((layoutLoads function result).1.flatMap (·.types)).map Prod.fst
  · obtain ⟨⟨_, ty⟩, inTypes, rfl⟩ := List.mem_map.mp listed
    obtain ⟨load, inLoads, inLoad⟩ := List.mem_flatMap.mp inTypes
    rw [settled inLoads inLoad]
    refine OrdMap.get?_inserted_of_agree _ _ ?_ (Or.inr listed)
    rintro ⟨other, ty'⟩ inOthers rfl
    obtain ⟨load', inLoads', inLoad'⟩ := List.mem_flatMap.mp inOthers
    exact Option.some.inj ((settled inLoads' inLoad').symm.trans (settled inLoads inLoad))
  · rw [OrdMap.get?_inserted_of_notMem _ _ listed, before]
    rfl

theorem Resumption.regType_phi (types : TypesHold function header relaxed) {value : Redefined}
    (member : value ∈ redefinedOf function result) :
    regType variant value.phi = regType function value.reg := by
  obtain ⟨load, inLoads, isLive, -, -, ty, merged, -, isFresh⟩ := redefined_spec member
  rw [resumption.slot_type types (resumption.accepted.load_slot inLoads) isLive, ← ty, regType,
    resumption.registerTypes]
  have listed : (value.phi, value.ty) ∈ load.types := by
    simp [SlotLoad.types, merged, ty]
  refine OrdMap.get?_inserted_of_agree _ _ ?_ (Or.inr ?_)
  · rintro ⟨other, ty'⟩ inOthers isPhi
    obtain rfl : other = value.phi := isPhi
    obtain ⟨load', inLoads', inLoad'⟩ := List.mem_flatMap.mp inOthers
    have isLoads := loads_spec function result
    rcases types_cases (isLoads.loadedAs load' inLoads') inLoad' with isFresh' | ⟨isLive', -, -⟩
    · obtain rfl := isLoads.load_unique inLoads' inLoads isFresh' isFresh
      have distinct := isLoads.fresh_distinct inLoads
      simp only [SlotLoad.fresh, isLive, merged, List.cons_append, List.nil_append,
        List.nodup_cons, List.mem_cons, not_or, List.not_mem_nil] at distinct
      simp only [SlotLoad.types, merged, Option.toList_some, List.map_cons, List.map_nil,
        List.cons_append, List.nil_append, List.mem_cons, Prod.mk.injEq, List.not_mem_nil,
        or_false, true_and] at inLoad'
      rcases inLoad' with isTy | ⟨same, -⟩ | ⟨same, -⟩ | ⟨same, -⟩
      · exact isTy.trans ty.symm
      · exact absurd same.symm distinct.1.2.2.1
      · exact absurd same.symm distinct.2.1.2.1
      · exact absurd same.symm distinct.2.2.1.1
    · have small := resumption.accepted.slot_lt resumption.numbered
        (resumption.accepted.load_slot inLoads')
      rw [isLive'] at small
      exact absurd small (lt_asymm (fresh_ge inLoads isFresh))
  · exact List.mem_map.mpr ⟨_, List.mem_flatMap.mpr ⟨load, inLoads, listed⟩, rfl⟩

theorem Resumption.regType_renamed (types : TypesHold function header relaxed) {reg : IrId}
    (own : reg < function.nextRegId) (at_ : IrBlockId) :
    regType variant ((carrierOf function result).rename (redefinedOf function result) at_ reg) =
      regType function reg := by
  by_cases named : reg ∈ (redefinedOf function result).map (·.reg)
  · obtain ⟨value, member, rfl⟩ := List.mem_map.mp named
    rw [rename_of_mem resumption.apart member]
    cases reaches : (carrierOf function result).reaching value at_ with
    | none => exact resumption.regType_own types own
    | some name =>
        rcases reaching_eq_some reaches with rfl | rfl
        · exact resumption.regType_own types own
        · exact resumption.regType_phi types member
  · rw [rename_of_notMem named]
    exact resumption.regType_own types own

/-- A register read in the region that has no type on record keeps its name, and
only blocks of the region define it. -/
theorem Resumption.untyped_inside (records : RecordsHold function header relaxed)
    (reachable : BlockReachable function header) {reg : IrId} {at_ : IrBlockId}
    (used : (reg, at_) ∈ regionUses function (blocksReachableFrom function header))
    {block : IrBasicBlock} {pc : Nat} (inside : at_ ∈ blocksReachableFrom function result.header)
    (found : function.getBlock at_ = some block) (within : pc ≤ block.instructions.length)
    (available : Available function reg (at_, pc))
    (untyped : ¬HandedOver function header relaxed reg) :
    reg ∉ (redefinedOf function result).map (·.reg) ∧
      ∃ id ∈ blocksReachableFrom function result.header, WrittenIn function reg id := by
  have notLive : ∀ {load : SlotLoad}, load ∈ (layoutLoads function result).1 →
      load.slot.param ≠ .live reg := fun inLoads isLive =>
    untyped (resumption.live_handedOver (resumption.accepted.load_slot inLoads) isLive).1
  have unnamed : reg ∉ (redefinedOf function result).map (·.reg) := by
    intro named
    obtain ⟨value, member, rfl⟩ := List.mem_map.mp named
    obtain ⟨load, inLoads, isLive, -⟩ := redefined_spec member
    exact notLive inLoads isLive
  refine ⟨unnamed, ?_⟩
  rcases resumption.use_cases used with
    ⟨phi, inHeader, rfl⟩ | ⟨load, inLoads, isLive, -⟩ | ⟨value, member, rfl⟩ | computed
  · refine ⟨header, ?_, headerBlock, resumption.accepted.isBlock, ?_⟩
    · have isInside := resumption.header_mem
      rwa [resumption.accepted.isHeader] at isInside ⊢
    · exact List.mem_append_left _ (List.mem_map_of_mem inHeader)
  · exact absurd isLive (notLive inLoads)
  · exact absurd (List.mem_map_of_mem member) unnamed
  · obtain ⟨id, inRegion, written, -⟩ := resumption.computed_dominates used records reachable
      computed inside found within available
    exact ⟨id, inRegion, written⟩

/-- The phis of the region declare what they did, those of other blocks are not
asked for. -/
theorem Resumption.phiType_variant {regs : List IrId}
    (own : ∀ reg ∈ regs, reg < function.nextRegId)
    (inside : ∀ reg ∈ regs, ∀ id block, function.getBlock id = some block →
      reg ∈ block.phiNodes.map (·.dest) → id ∈ blocksReachableFrom function result.header) :
    phiType variant regs = phiType function regs := by
  rw [phiType_eq, phiType_eq]
  refine OrdMap.findSome?_values_congr fun id => ?_
  change (variant.getBlock id).bind _ = (function.getBlock id).bind _
  by_cases inRegion : id ∈ blocksReachableFrom function result.header
  · obtain ⟨block, isBlock⟩ := exists_block inRegion
    obtain ⟨block', inVariant, region⟩ := resumption.getBlock_region inRegion isBlock
    obtain ⟨ownPhis, phis, related⟩ := region.phis
    have noMerge : ((carrierOf function result).mergePhis (redefinedOf function result) id).find?
        (fun phi => regs.contains phi.dest) = none := by
      refine List.find?_eq_none.mpr fun phi member asked => ?_
      unfold Carrier.mergePhis at member
      split_ifs at member
      · obtain ⟨value, inAll, rfl⟩ := List.mem_map.mp member
        have asked := List.contains_iff_mem.mp asked
        exact phi_ne_own inAll (own _ asked) rfl
      · cases member
    have same : (ownPhis.find? fun phi => regs.contains phi.dest).map (·.ty) =
        (block.phiNodes.find? fun phi => regs.contains phi.dest).map (·.ty) := by
      clear noMerge phis region isBlock
      generalize block.phiNodes = original at related
      induction related with
      | nil => rfl
      | cons isPhi _ ih =>
          rw [List.find?_cons, List.find?_cons, isPhi.dest]
          split
          · exact congrArg some isPhi.ty
          · exact ih
    rw [inVariant, isBlock, Option.bind_some, Option.bind_some, phis, List.find?_append, noMerge,
      Option.or_none, same]
  · have absent : (function.getBlock id).bind (fun block => (block.phiNodes.find? fun phi =>
        regs.contains phi.dest).map (·.ty)) = none := by
      cases isBlock : function.getBlock id with
      | none => rfl
      | some block =>
          rw [Option.bind_some, Option.map_eq_none_iff]
          refine List.find?_eq_none.mpr fun phi member asked => inRegion ?_
          exact inside _ (List.contains_iff_mem.mp asked) id block isBlock
            (List.mem_map_of_mem member)
    rw [absent]
    cases inVariant : variant.getBlock id with
    | none => rfl
    | some block' =>
        rcases resumption.getBlock_cases inVariant with rfl | ⟨-, inRegion'⟩
        · obtain ⟨block, isEntry, -, -, noPhis⟩ := resumption.atEntry
          cases inVariant.symm.trans isEntry
          rw [Option.bind_some, noPhis]
          rfl
        · exact absurd inRegion' inRegion

theorem Resumption.localType_variant (reg : IrId) :
    localType variant reg = localType function reg := by
  rw [resumption.carried.rest]
  rfl

theorem Resumption.written_unique {reg : IrId} {first second : IrBlockId}
    (isFirst : WrittenIn function reg first) (isSecond : WrittenIn function reg second) :
    first = second := by
  obtain ⟨_, _, -, -, definesFirst⟩ := isFirst.definesAt
  obtain ⟨_, _, -, -, definesSecond⟩ := isSecond.definesAt
  exact congrArg Prod.fst (resumption.ssa.single definesFirst definesSecond)

theorem Resumption.not_parameter {reg : IrId} {id : IrBlockId} (written : WrittenIn function reg id) :
    reg ∉ function.signature.parameters.map (·.reg) := by
  intro isParameter
  have atEntry := DefinesAt.parameter isParameter
  obtain ⟨block, found, member⟩ := written
  rcases List.mem_append.mp member with isPhi | isResult
  · have same := resumption.ssa.single atEntry (.phi found isPhi)
    injection same with same
    rw [← same] at found
    rw [resumption.ssa.entryPhis found] at isPhi
    cases isPhi
  · obtain ⟨inst, inBlock, writes⟩ := List.mem_filterMap.mp isResult
    obtain ⟨pc, here⟩ := List.mem_iff_getElem?.mp inBlock
    have same := resumption.ssa.single atEntry (.instruction found here writes)
    injection same with _ same
    exact absurd same.symm (Nat.succ_ne_zero pc)

theorem Resumption.no_parameter {reg : IrId} (own : reg < function.nextRegId) :
    (variant.signature.parameters.find? fun param => param.reg == reg) = none := by
  have different : (framePtr function == reg) = false := beq_false_of_ne (ne_of_gt own)
  rw [resumption.parameters]
  simp [different]

theorem Resumption.aggregateType_handed (types : TypesHold function header relaxed)
    {aggregate : IrId} (own : aggregate < function.nextRegId) {load : SlotLoad}
    (inLoads : load ∈ (layoutLoads function result).1)
    (isLive : load.slot.param = .live aggregate) (isDest : load.dest = aggregate)
    (outside : ∀ inner ∈ blocksReachableFrom function header,
      ¬WrittenIn function aggregate inner) :
    aggregateType variant aggregate =
      (localType function aggregate <|> regType function aggregate) := by
  have typed := resumption.slot_type types (resumption.accepted.load_slot inLoads) isLive
  obtain ⟨entry, found, instructions, -⟩ := resumption.atEntry
  have slotType : ∀ {ptr : IrId} {ty : IrType}, .load aggregate ptr ty ∈ entry.instructions →
      ty = load.slot.ty := by
    intro ptr ty member
    obtain ⟨other, inLoads', isLive', rfl⟩ := load_of_entry own (instructions ▸ member)
    have typed' := resumption.slot_type types (resumption.accepted.load_slot inLoads') isLive'
    exact Option.some.inj (typed'.symm.trans typed)
  have first : variant.cfg.blocks.values.findSome? (loadedIn aggregate) = some load.slot.ty := by
    refine findSome?_eq_some_of_only ⟨entry, (OrdMap.mem_values_iff _ _).mpr ⟨_, found⟩, ?_⟩ ?_
    · have member : IrInstruction.load aggregate load.addr load.slot.ty ∈ entry.instructions := by
        rw [instructions]
        exact List.mem_flatMap.mpr ⟨load, inLoads, by simp [SlotLoad.code, isDest]⟩
      refine findSome?_eq_some_of_only ⟨_, member, loadOf_eq_some.mpr ⟨_, rfl⟩⟩ ?_
      intro inst inEntry ty isLoad
      obtain ⟨ptr, rfl⟩ := loadOf_eq_some.mp isLoad
      exact slotType inEntry
    · intro block' inValues ty isLoaded
      obtain ⟨id, inVariant⟩ := (OrdMap.mem_values_iff _ _).mp inValues
      rcases resumption.getBlock_cases inVariant with rfl | ⟨-, inRegion⟩
      · cases found.symm.trans inVariant
        obtain ⟨ptr, member⟩ := loadedIn_eq_some isLoaded
        exact slotType member
      · obtain ⟨block, isBlock⟩ := exists_block inRegion
        obtain ⟨other, isOther, region⟩ := resumption.getBlock_region inRegion isBlock
        cases inVariant.symm.trans isOther
        rw [loadedIn_renamed _ _ _ region.instructions] at isLoaded
        rw [loadedIn_eq_none fun member => ?_] at isLoaded
        · cases isLoaded
        · rw [resumption.accepted.isHeader] at inRegion
          exact outside id inRegion ⟨block, isBlock, member⟩
  rw [aggregateType_eq, resumption.no_parameter own, resumption.localType_variant, first, typed]
  rfl

/-- A struct that the region computes is found there as before. -/
theorem Resumption.aggregateType_computed {aggregate : IrId}
    (own : aggregate < function.nextRegId) {id : IrBlockId}
    (inside : id ∈ blocksReachableFrom function result.header)
    (written : WrittenIn function aggregate id)
    (unhanded : ¬HandedOver function header relaxed aggregate) :
    aggregateType variant aggregate = aggregateType function aggregate := by
  have notParameter : (function.signature.parameters.find? fun param =>
      param.reg == aggregate) = none := by
    refine List.find?_eq_none.mpr fun param member same => ?_
    exact resumption.not_parameter written (List.mem_map.mpr ⟨param, member, beq_iff_eq.mp same⟩)
  suffices sameLoads : variant.cfg.blocks.values.findSome? (loadedIn aggregate) =
      function.cfg.blocks.values.findSome? (loadedIn aggregate) by
    rw [aggregateType_eq, aggregateType_eq, resumption.no_parameter own, notParameter,
      resumption.localType_variant, sameLoads]
  refine OrdMap.findSome?_values_congr fun key => ?_
  change (variant.getBlock key).bind _ = (function.getBlock key).bind _
  by_cases inRegion : key ∈ blocksReachableFrom function result.header
  · obtain ⟨block, isBlock⟩ := exists_block inRegion
    obtain ⟨block', inVariant, region⟩ := resumption.getBlock_region inRegion isBlock
    rw [inVariant, isBlock, Option.bind_some, Option.bind_some,
      loadedIn_renamed _ _ _ region.instructions]
  · have absent : (function.getBlock key).bind (loadedIn aggregate) = none := by
      cases isBlock : function.getBlock key with
      | none => rfl
      | some block =>
          refine loadedIn_eq_none fun member => inRegion ?_
          exact resumption.written_unique written ⟨block, isBlock, member⟩ ▸ inside
    rw [absent]
    cases inVariant : variant.getBlock key with
    | none => rfl
    | some block' =>
        rcases resumption.getBlock_cases inVariant with rfl | ⟨-, inRegion'⟩
        · obtain ⟨entry, isEntry, instructions, -⟩ := resumption.atEntry
          cases inVariant.symm.trans isEntry
          rw [Option.bind_some, ← Option.not_isSome_iff_eq_none]
          intro loaded
          obtain ⟨ty, isLoaded⟩ := Option.isSome_iff_exists.mp loaded
          obtain ⟨ptr, member⟩ := loadedIn_eq_some isLoaded
          obtain ⟨load, inLoads, isLive, -⟩ := load_of_entry own (instructions ▸ member)
          exact unhanded
            (resumption.live_handedOver (resumption.accepted.load_slot inLoads) isLive).1
        · exact absurd inRegion' inRegion

section Decoded

variable (records : RecordsHold function header relaxed) (reachable : BlockReachable function header)
  {id : IrBlockId} {block : IrBasicBlock}
  (inside : id ∈ blocksReachableFrom function result.header)
  (found : function.getBlock id = some block) {pc : Nat} {inst : IrInstruction}
  (here : block.instructions[pc]? = some inst)
include records reachable inside found here

theorem Resumption.operand_unhanded {reg : IrId} (used : reg ∈ inst.uses)
    (unhanded : ¬HandedOver function header relaxed reg) :
    (carrierOf function result).rename (redefinedOf function result) id reg = reg ∧
      ∃ inner ∈ blocksReachableFrom function result.header, WrittenIn function reg inner := by
  have isRead : reads block reg = true :=
    reads_iff.mpr (Or.inl ⟨inst, List.mem_of_getElem? here, used⟩)
  have inUses : (reg, id) ∈ regionUses function (blocksReachableFrom function header) := by
    rw [resumption.accepted.isHeader] at inside
    exact mem_regionUses.mpr ⟨id, inside, block, found, mem_blockUses.mpr (Or.inr ⟨rfl, isRead⟩)⟩
  obtain ⟨unnamed, written⟩ := resumption.untyped_inside records reachable inUses inside found
    (List.getElem?_eq_some_iff.mp here).1.le (resumption.ssa.operands found here reg used) unhanded
  exact ⟨rename_of_notMem unnamed, written⟩

variable (types : TypesHold function header relaxed)
include types

theorem Resumption.phiType_operands {regs : List IrId} (used : ∀ reg ∈ regs, reg ∈ inst.uses)
    (untyped : ∀ reg ∈ regs, regType function reg = none) :
    phiType variant
        (regs.map ((carrierOf function result).rename (redefinedOf function result) id)) =
      phiType function regs := by
  have unhanded : ∀ reg ∈ regs, ¬HandedOver function header relaxed reg := by
    intro reg member handed
    have recorded := types.recorded handed
    rw [untyped reg member] at recorded
    cases recorded
  have kept : regs.map ((carrierOf function result).rename (redefinedOf function result) id) =
      regs := by
    refine (List.map_congr_left fun reg member => ?_).trans (List.map_id regs)
    exact (resumption.operand_unhanded records reachable inside found here
      (used reg member) (unhanded reg member)).1
  rw [kept]
  refine resumption.phiType_variant ?_ ?_
  · intro reg member
    refine resumption.numbered.registers found reg (mentioned_of_reads ?_)
    exact reads_iff.mpr (Or.inl ⟨inst, List.mem_of_getElem? here, used reg member⟩)
  · intro reg member key other isBlock isPhi
    obtain ⟨-, inner, inRegion, written⟩ := resumption.operand_unhanded records reachable inside
      found here (used reg member) (unhanded reg member)
    exact resumption.written_unique written
      ⟨other, isBlock, List.mem_append_left _ isPhi⟩ ▸ inRegion

theorem Resumption.aggregateType_variant {dest aggregate : IrId} {indices : List Nat}
    (isTaken : inst = .extractValue dest aggregate indices) :
    aggregateType variant
        ((carrierOf function result).rename (redefinedOf function result) id aggregate) =
      aggregateType function aggregate := by
  subst isTaken
  have used : aggregate ∈ (IrInstruction.extractValue dest aggregate indices).uses := by
    simp [IrInstruction.uses]
  have isRead : reads block aggregate = true :=
    reads_iff.mpr (Or.inl ⟨_, List.mem_of_getElem? here, used⟩)
  have own : aggregate < function.nextRegId :=
    resumption.numbered.registers found _ (mentioned_of_reads isRead)
  have isInside : id ∈ blocksReachableFrom function header :=
    resumption.accepted.isHeader ▸ inside
  by_cases handed : HandedOver function header relaxed aggregate
  · obtain ⟨outside, same⟩ :=
      types.takenApart isInside found (List.mem_of_getElem? here) handed
    have outside' : ∀ inner ∈ blocksReachableFrom function result.header,
        ¬WrittenIn function aggregate inner := resumption.accepted.isHeader ▸ outside
    have unnamed : aggregate ∉ (redefinedOf function result).map (·.reg) := by
      intro named
      obtain ⟨value, member, rfl⟩ := List.mem_map.mp named
      obtain ⟨inRegion, written⟩ := resumption.redefined_written records member
      exact outside' _ inRegion written
    have inUses : (aggregate, id) ∈
        regionUses function (blocksReachableFrom function header) :=
      mem_regionUses.mpr ⟨id, isInside, block, found, mem_blockUses.mpr (Or.inr ⟨rfl, isRead⟩)⟩
    rw [rename_of_notMem unnamed, same]
    rcases resumption.use_cases inUses with
      ⟨phi, inHeader, rfl⟩ | ⟨load, inLoads, isLive, -, isDest⟩ | ⟨value, member, rfl⟩ | computed
    · refine absurd ⟨headerBlock, resumption.accepted.isBlock, ?_⟩
        (outside header (resumption.accepted.isHeader ▸ resumption.header_mem))
      exact List.mem_append_left _ (List.mem_map_of_mem inHeader)
    · exact resumption.aggregateType_handed types own inLoads isLive isDest outside
    · exact absurd (List.mem_map_of_mem member) unnamed
    · obtain ⟨inner, inRegion, written, -⟩ := resumption.computed_dominates inUses records reachable
        computed inside found (List.getElem?_eq_some_iff.mp here).1.le
        (resumption.ssa.operands found here _ used)
      exact absurd written (outside' inner inRegion)
  · obtain ⟨kept, inner, inRegion, written⟩ := resumption.operand_unhanded records reachable inside
      found here used handed
    rw [kept]
    exact resumption.aggregateType_computed own inRegion written handed

theorem Resumption.declOf_variant :
    declOf variant
        (inst.renameUses ((carrierOf function result).rename (redefinedOf function result) id)) =
      declOf function inst := by
  have own : ∀ reg ∈ inst.uses, reg < function.nextRegId := fun reg used =>
    resumption.numbered.registers found reg (mentioned_of_reads
      (reads_iff.mpr (Or.inl ⟨inst, List.mem_of_getElem? here, used⟩)))
  have typed : ∀ reg ∈ inst.uses, regType variant
      ((carrierOf function result).rename (redefinedOf function result) id reg) =
        regType function reg :=
    fun reg used => resumption.regType_renamed types (own reg used) id
  have declared : ∀ dest, inst.writes = some dest → regType variant dest = regType function dest :=
    fun dest writes => resumption.regType_own types (resumption.numbered.registers found dest
      (mentioned_of_writes (List.mem_of_getElem? here) writes))
  have keeps : ∀ reg ∈ inst.uses, regType function reg = none →
      (carrierOf function result).rename (redefinedOf function result) id reg = reg := by
    intro reg used untyped
    refine (resumption.operand_unhanded records reachable inside found here used fun handed => ?_).1
    have recorded := types.recorded handed
    rw [untyped] at recorded
    cases recorded
  have phis : ∀ regs : List IrId, (∀ reg ∈ regs, reg ∈ inst.uses) →
      (∀ reg ∈ regs, regType function reg = none) → phiType variant
        (regs.map ((carrierOf function result).rename (redefinedOf function result) id)) =
          phiType function regs := fun regs =>
    resumption.phiType_operands records reachable inside found here types
  have aggregates : ∀ {dest aggregate indices}, inst = .extractValue dest aggregate indices →
      aggregateType variant
        ((carrierOf function result).rename (redefinedOf function result) id aggregate) =
          aggregateType function aggregate := fun isTaken =>
    resumption.aggregateType_variant records reachable inside found here types isTaken
  generalize (carrierOf function result).rename (redefinedOf function result) id = rename at *
  have localType := resumption.localType_variant
  cases inst
  case binOp dest op left right =>
    have sameLeft := typed left (by simp [IrInstruction.uses])
    have sameRight := typed right (by simp [IrInstruction.uses])
    simp only [IrInstruction.renameUses, declOf, binopType, localType, declared dest rfl, sameLeft,
      sameRight]
    cases isDest : regType function dest with
    | some _ => rfl
    | none => cases isLeft : regType function left with
      | some _ => rfl
      | none => cases isRight : regType function right with
        | some _ => rfl
        | none =>
            have samePhi := phis [left, right] (by simp [IrInstruction.uses])
              (by simp [isLeft, isRight])
            rw [List.map_cons, List.map_cons, List.map_nil] at samePhi
            rw [samePhi]
  case unOp dest op operand =>
    have sameOperand := typed operand (by simp [IrInstruction.uses])
    simp only [IrInstruction.renameUses, declOf, unopType, localType, declared dest rfl,
      sameOperand]
    cases isDest : regType function dest with
    | some _ => rfl
    | none => cases isOperand : regType function operand with
      | some _ => rfl
      | none =>
          have samePhi := phis [operand] (by simp [IrInstruction.uses]) (by simp [isOperand])
          rw [List.map_cons, List.map_nil] at samePhi
          rw [samePhi]
  case cmp dest op left right =>
    have sameLeft := typed left (by simp [IrInstruction.uses])
    simp only [IrInstruction.renameUses, declOf, cmpType, sameLeft]
    cases isLeft : regType function left with
    | some _ => rfl
    | none =>
        have samePhi := phis [left] (by simp [IrInstruction.uses]) (by simp [isLeft])
        have kept := keeps left (by simp [IrInstruction.uses]) isLeft
        rw [List.map_cons, List.map_nil] at samePhi
        rw [samePhi, kept, localType]
  case store ptr value storeTy =>
    simp only [IrInstruction.renameUses, declOf, typed ptr (by simp [IrInstruction.uses])]
  case extractValue dest aggregate indices =>
    simp only [IrInstruction.renameUses, declOf, aggregates rfl]
  case callDirect dest func args isTail | callIndirect dest funcPtr args signature =>
    cases dest with
    | none => rfl
    | some dest => simp only [IrInstruction.renameUses, declOf, Option.bind_some, declared dest rfl]
  all_goals rfl

end Decoded

end Variant

end Rayzor.Osr
