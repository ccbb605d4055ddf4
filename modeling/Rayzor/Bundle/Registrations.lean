import Rayzor.Bundle.Modules

/-!
Contract: the calls a startup hook makes to register a class or a closure
target, with the operands only they use.
-/

namespace Rayzor.Bundle

open Ir
open Library (OrdMap)

def isKeepFunction (func : BundleFunction) : Bool :=
  func.custom.get? "keep" == some "true" || func.wasmExport ||
    "export_".toList.isPrefixOf func.name.toList

def isStartupFunction (func : BundleFunction) : Bool :=
  ["__vtable_init__", "__init__"].contains func.name

/-- Startup registrations made for a class, whose identifier is the first
argument. -/
def CLASS_KEYED : List String :=
  ["haxe_vtable_init", "haxe_vtable_set_slot", "haxe_iface_vtable_set_slot",
    "haxe_register_interface_impl", "haxe_type_register_to_string",
    "haxe_type_register_constructor", "haxe_register_method", "haxe_register_static_field"]

/-- Startup registrations made for the closure target in the first argument. -/
def TARGET_KEYED : List String :=
  ["haxe_closure_register_entries", "haxe_closure_register_packed_entry",
    "haxe_closure_register_bound_thunk"]

/-- Calls that produce a class no constant in the program names. -/
def CLASS_BY_NAME : List String := ["haxe_type_resolve_class", "haxe_type_get_super_class"]

inductive Key where
  | cls (id : Nat)
  | target (func : IrFunctionId)
  deriving DecidableEq

/-- A place in a function: a block and an index into its instructions. -/
abbrev Site := IrBlockId × Nat

/-- A registration call and the operands only it uses. The first site is the
call's own. -/
structure Registration where
  module : Nat
  function : IrFunctionId
  key : Key
  externId : IrFunctionId
  refs : List IrFunctionId
  sites : List Site
  deriving DecidableEq

def sitedInstructions (function : IrFunction) : List (Site × IrInstruction) :=
  function.cfg.blocks.entries.flatMap fun entry =>
    entry.2.instructions.zipIdx.map fun indexed => ((entry.1, indexed.2), indexed.1)

/-- The register a terminator reads, as the use counts see it. -/
def terminatorUse : IrTerminator → Option IrId
  | .condBranch condition _ _ => some condition
  | .switch value _ _ => some value
  | .ret value => value
  | .noReturn call => some call
  | _ => none

def phiUses (block : IrBasicBlock) : List IrId :=
  block.phiNodes.flatMap fun phi => phi.incoming.map Prod.snd

def allUses (function : IrFunction) : List IrId :=
  function.cfg.blocks.values.flatMap fun block =>
    block.instructions.flatMap IrInstruction.uses ++ phiUses block ++
      (terminatorUse block.terminator).toList

/-- Where each register is defined; a later definition replaces an earlier one. -/
def definitionSites (function : IrFunction) : OrdMap IrId (Site × IrInstruction) :=
  (sitedInstructions function).foldl (fun defs sited =>
    match sited.2.dest with
    | some dest => defs.insert dest sited
    | none => defs) .empty

/-- The definitions behind one operand: casts down to a constant or a function
reference, each defined for the value after it alone. -/
def operandChain (defs : OrdMap IrId (Site × IrInstruction)) (uses : List IrId) :
    Nat → IrId → List IrId → Option (List Site × List IrFunctionId)
  | 0, _, _ => none
  | fuel + 1, value, visited =>
      match defs.get? value with
      | none => none
      | some (site, def') =>
          if uses.count value ≠ 1 ∨ value ∈ visited then none
          else match def' with
            | .functionRef _ funcId => some ([site], [funcId])
            | .const _ (.function funcId) => some ([site], [funcId])
            | .const _ _ => some ([site], [])
            | .cast _ src _ _ | .bitCast _ src _ =>
                (operandChain defs uses fuel src (value :: visited)).map fun chain =>
                  (site :: chain.1, chain.2)
            | _ => none

def ownedOperands (function : IrFunction) (args : List IrId) :
    Option (List Site × List IrFunctionId) :=
  let defs := definitionSites function
  let chains := args.mapM fun arg =>
    operandChain defs (allUses function) (defs.entries.length + 1) arg []
  chains.map fun chains => (chains.flatMap Prod.fst, chains.flatMap Prod.snd)

def keyOf (function : IrFunction) (classKeyed : Bool) (first : IrId)
    (refs : List IrFunctionId) : Option Key :=
  match classKeyed, (definitionSites function).get? first with
  | true, some (_, .const _ value) => (integerBits value).map .cls
  | false, some _ => refs.head?.map .target
  | _, _ => none

def registers? (module : BundleModule) : IrInstruction → Option (IrFunctionId × List IrId × Bool)
  | .callDirect _ funcId args _ =>
      match module.externFunctions.get? funcId with
      | none => none
      | some callee =>
          if CLASS_KEYED.contains callee.name then some (funcId, args, true)
          else if TARGET_KEYED.contains callee.name then some (funcId, args, false)
          else none
  | _ => none

/-- The registration made at a place, if one is. A registration call without
arguments has no first one to take the key from: the search stops there. -/
def registrationAt (moduleIdx : Nat) (module : BundleModule) (id : IrFunctionId)
    (function : IrFunction) (sited : Site × IrInstruction) : Option (Option Registration) :=
  match registers? module sited.2 with
  | none => some none
  | some (externId, args, classKeyed) =>
      match ownedOperands function args with
      | none => some none
      | some (sites, refs) =>
          match args with
          | [] => none
          | first :: _ =>
              some ((keyOf function classKeyed first refs).map fun key =>
                ⟨moduleIdx, id, key, externId, refs, sited.1 :: sites⟩)

def findRegistrations (moduleIdx : Nat) (module : BundleModule) (id : IrFunctionId)
    (function : IrFunction) : Option (List Registration) :=
  ((sitedInstructions function).mapM (registrationAt moduleIdx module id function)).map
    List.reduceOption

theorem mem_sitedInstructions {function : IrFunction} {site : Site} {inst : IrInstruction} :
    (site, inst) ∈ sitedInstructions function ↔ ∃ block,
      function.getBlock site.1 = some block ∧ block.instructions[site.2]? = some inst := by
  simp only [sitedInstructions, List.mem_flatMap, List.mem_map]
  constructor
  · rintro ⟨entry, member, indexed, inBlock, same⟩
    simp only [Prod.mk.injEq] at same
    obtain ⟨rfl, rfl⟩ := same
    exact ⟨entry.2, (OrdMap.mem_entries_iff _ _ _).mp member,
      List.mem_zipIdx_iff_getElem?.mp inBlock⟩
  · rintro ⟨block, found, here⟩
    exact ⟨(site.1, block), (OrdMap.mem_entries_iff _ _ _).mpr found, (inst, site.2),
      List.mem_zipIdx_iff_getElem?.mpr here, rfl⟩

theorem sited_unique {function : IrFunction} {site : Site} {inst inst' : IrInstruction}
    (here : (site, inst) ∈ sitedInstructions function)
    (again : (site, inst') ∈ sitedInstructions function) : inst = inst' := by
  obtain ⟨block, found, at'⟩ := mem_sitedInstructions.mp here
  obtain ⟨block', found', at''⟩ := mem_sitedInstructions.mp again
  rw [found] at found'
  obtain rfl := Option.some.inj found'
  rw [at'] at at''
  exact Option.some.inj at''

def taggedUses (function : IrFunction) : List (Option Site × IrId) :=
  function.cfg.blocks.entries.flatMap fun entry =>
    (entry.2.instructions.zipIdx.flatMap fun indexed =>
        indexed.1.uses.map fun reg => (some (entry.1, indexed.2), reg)) ++
      (phiUses entry.2).map (fun reg => (none, reg)) ++
      (terminatorUse entry.2.terminator).toList.map fun reg => (none, reg)

theorem map_taggedUses (function : IrFunction) :
    (taggedUses function).map Prod.snd = allUses function := by
  have blockUses : ∀ instructions : List IrInstruction,
      (instructions.zipIdx.flatMap fun indexed => indexed.1.uses) =
        instructions.flatMap IrInstruction.uses := by
    intro instructions
    have same : (instructions.zipIdx.map Prod.fst).flatMap IrInstruction.uses =
        instructions.flatMap IrInstruction.uses := by
      rw [List.zipIdx_map_fst]
    rwa [List.flatMap_map] at same
  simp only [taggedUses, allUses, OrdMap.values, List.map_flatMap, List.flatMap_map,
    List.map_append, List.map_map, Function.comp_def, List.map_id', blockUses]

theorem sole_use {function : IrFunction} {reg : IrId} {tag tag' : Option Site}
    (once : (allUses function).count reg = 1) (used : (tag, reg) ∈ taggedUses function)
    (again : (tag', reg) ∈ taggedUses function) : tag = tag' := by
  rw [← map_taggedUses, List.count, List.countP_map, List.countP_eq_length_filter] at once
  obtain ⟨only, isOnly⟩ := List.length_eq_one_iff.mp once
  have first : (tag, reg) ∈ [only] := by
    rw [← isOnly]
    exact List.mem_filter.mpr ⟨used, by simp⟩
  have second : (tag', reg) ∈ [only] := by
    rw [← isOnly]
    exact List.mem_filter.mpr ⟨again, by simp⟩
  rw [List.mem_singleton] at first second
  exact congrArg Prod.fst (first.trans second.symm)

theorem tagged_of_sited {function : IrFunction} {site : Site} {inst : IrInstruction} {reg : IrId}
    (here : (site, inst) ∈ sitedInstructions function) (uses : reg ∈ inst.uses) :
    (some site, reg) ∈ taggedUses function := by
  obtain ⟨block, found, at'⟩ := mem_sitedInstructions.mp here
  refine List.mem_flatMap.mpr ⟨(site.1, block), (OrdMap.mem_entries_iff _ _ _).mpr found, ?_⟩
  refine List.mem_append_left _ (List.mem_append_left _ (List.mem_flatMap.mpr ?_))
  exact ⟨(inst, site.2), List.mem_zipIdx_iff_getElem?.mpr at', List.mem_map.mpr ⟨reg, uses, rfl⟩⟩

theorem get?_definitionSites {function : IrFunction} {reg : IrId} {site : Site}
    {inst : IrInstruction} (found : (definitionSites function).get? reg = some (site, inst)) :
    (site, inst) ∈ sitedInstructions function ∧ inst.dest = some reg := by
  have along : ∀ (sited : List (Site × IrInstruction)) (defs : OrdMap IrId (Site × IrInstruction)),
      (sited.foldl (fun defs sited => match sited.2.dest with
        | some dest => defs.insert dest sited
        | none => defs) defs).get? reg = some (site, inst) →
      defs.get? reg = some (site, inst) ∨ ((site, inst) ∈ sited ∧ inst.dest = some reg) := by
    intro sited
    induction sited with
    | nil => exact fun defs found => Or.inl found
    | cons head rest ih =>
        intro defs found
        rw [List.foldl_cons] at found
        rcases ih _ found with earlier | ⟨member, defines⟩
        · split at earlier
          · rename_i dest isDest
            rw [OrdMap.get?_insert] at earlier
            split_ifs at earlier with same
            · obtain rfl := Option.some.inj earlier
              exact Or.inr ⟨List.mem_cons_self, same ▸ isDest⟩
            · exact Or.inl earlier
          · exact Or.inl earlier
        · exact Or.inr ⟨List.mem_cons_of_mem _ member, defines⟩
  rcases along _ _ found with absurdly | defined
  · rw [OrdMap.get?_empty] at absurdly
    cases absurdly
  · exact defined

/-- The functions an instruction names in the forms the walk over the code looks
at: a callee, a reference, a closure body, a constant that is a function. -/
def followedBy : IrInstruction → List IrFunctionId
  | .callDirect _ funcId _ _ | .functionRef _ funcId | .makeClosure _ funcId _ => [funcId]
  | .const _ (.function funcId) => [funcId]
  | _ => []

/-- A definition behind an operand: nothing reads it but the value after it, and
it names nothing beside the functions collected. -/
structure OwnedDefinition (function : IrFunction) (sites : List Site)
    (refs : List IrFunctionId) (site : Site) (reg : IrId) : Prop where
  once : (allUses function).count reg = 1
  defined : ∃ inst, (site, inst) ∈ sitedInstructions function ∧ inst.dest = some reg ∧
    globalNamedBy inst = none ∧ ∀ id ∈ followedBy inst, id ∈ refs
  member : site ∈ sites

theorem operandChain_owned {function : IrFunction} {fuel : Nat} {value : IrId}
    {visited : List IrId} {sites : List Site} {refs : List IrFunctionId}
    (found : operandChain (definitionSites function) (allUses function) fuel value visited =
      some (sites, refs)) {site : Site} (member : site ∈ sites) :
    ∃ reg, OwnedDefinition function sites refs site reg ∧ (reg = value ∨
      ∃ user ∈ sites, ∃ inst, (user, inst) ∈ sitedInstructions function ∧ reg ∈ inst.uses) := by
  induction fuel generalizing value visited sites refs with
  | zero => cases found
  | succ fuel ih =>
      unfold operandChain at found
      split at found
      · cases found
      · rename_i own def' isDef
        obtain ⟨here, defines⟩ := get?_definitionSites isDef
        split_ifs at found with bad
        have once : (allUses function).count value = 1 := by
          by_contra other
          exact bad (Or.inl other)
        -- a constant or a function reference ends the chain
        have ends : (∀ id ∈ followedBy def', id ∈ refs) → globalNamedBy def' = none →
            sites = [own] → ∃ reg, OwnedDefinition function sites refs site reg ∧
              (reg = value ∨ ∃ user ∈ sites, ∃ inst,
                (user, inst) ∈ sitedInstructions function ∧ reg ∈ inst.uses) := by
          intro named noGlobal single
          have same : site = own := by
            rw [single] at member
            exact List.mem_singleton.mp member
          subst same
          exact ⟨value, ⟨once, ⟨def', here, defines, noGlobal, named⟩, member⟩, Or.inl rfl⟩
        -- a cast goes on with its source
        have goesOn : ∀ src, followedBy def' = [] → globalNamedBy def' = none →
            def'.uses = [src] →
            (operandChain (definitionSites function) (allUses function) fuel src
              (value :: visited)).map (fun chain => (own :: chain.1, chain.2)) =
                some (sites, refs) →
            ∃ reg, OwnedDefinition function sites refs site reg ∧
              (reg = value ∨ ∃ user ∈ sites, ∃ inst,
                (user, inst) ∈ sitedInstructions function ∧ reg ∈ inst.uses) := by
          intro src names noGlobal reads mapped
          obtain ⟨⟨sites', refs'⟩, rest, same⟩ := Option.map_eq_some_iff.mp mapped
          simp only [Prod.mk.injEq] at same
          obtain ⟨rfl, rfl⟩ := same
          rcases List.mem_cons.mp member with rfl | later
          · refine ⟨value, ⟨once, ⟨def', here, defines, noGlobal, ?_⟩, member⟩, Or.inl rfl⟩
            rw [names]
            exact fun id absurdly => absurd absurdly List.not_mem_nil
          · obtain ⟨reg, owned, reached⟩ := ih rest later
            refine ⟨reg, ⟨owned.once, owned.defined, member⟩, Or.inr ?_⟩
            rcases reached with rfl | ⟨user, inSites, inst, sited, used⟩
            · exact ⟨own, List.mem_cons_self, def', here, by simp [reads]⟩
            · exact ⟨user, List.mem_cons_of_mem _ inSites, inst, sited, used⟩
        split at found
        · cases found
          exact ends (by simp [followedBy]) rfl rfl
        · cases found
          exact ends (by simp [followedBy]) rfl rfl
        · rename_i value' notFunction
          cases found
          refine ends ?_ rfl rfl
          cases value' <;> first | exact fun id named => named | skip
          exact absurd rfl (notFunction _)
        · exact goesOn _ rfl rfl rfl found
        · exact goesOn _ rfl rfl rfl found
        · cases found

theorem OwnedDefinition.mono {function : IrFunction} {sites sites' : List Site}
    {refs refs' : List IrFunctionId} {site : Site} {reg : IrId}
    (owned : OwnedDefinition function sites refs site reg) (moreSites : sites ⊆ sites')
    (moreRefs : refs ⊆ refs') : OwnedDefinition function sites' refs' site reg where
  once := owned.once
  defined := by
    obtain ⟨inst, sited, defines, noGlobal, named⟩ := owned.defined
    exact ⟨inst, sited, defines, noGlobal, fun id member => moreRefs (named id member)⟩
  member := moreSites owned.member

theorem mem_of_mapM {α β : Type} {search : α → Option β} {items : List α} {found : List β}
    (searched : items.mapM search = some found) :
    ∀ result ∈ found, ∃ item ∈ items, search item = some result := by
  induction items generalizing found with
  | nil =>
      rw [List.mapM_nil] at searched
      obtain rfl := Option.some.inj searched
      exact fun result member => absurd member List.not_mem_nil
  | cons item rest ih =>
      rw [List.mapM_cons] at searched
      obtain ⟨head, isHead, searched⟩ := Option.bind_eq_some_iff.mp searched
      obtain ⟨tail, isTail, same⟩ := Option.bind_eq_some_iff.mp searched
      obtain rfl := Option.some.inj same
      intro result member
      rcases List.mem_cons.mp member with rfl | later
      · exact ⟨item, List.mem_cons_self, isHead⟩
      · obtain ⟨other, inRest, isResult⟩ := ih isTail result later
        exact ⟨other, List.mem_cons_of_mem _ inRest, isResult⟩

theorem mapM_isSome {α β : Type} {search : α → Option β} {items : List α} :
    (items.mapM search).isSome ↔ ∀ item ∈ items, (search item).isSome := by
  induction items with
  | nil => simp
  | cons item rest ih =>
      rw [List.mapM_cons, List.forall_mem_cons, ← ih]
      cases search item <;> cases rest.mapM search <;> simp

/-- A registration that was found: its call, and the definitions of its operands. -/
structure IsRegistration (moduleIdx : Nat) (module : BundleModule) (id : IrFunctionId)
    (function : IrFunction) (registration : Registration) : Prop where
  inModule : registration.module = moduleIdx
  inFunction : registration.function = id
  callee : module.externFunctions.contains registration.externId
  call : ∃ site rest dest args typeArgs, registration.sites = site :: rest ∧
    (site, .callDirect dest registration.externId args typeArgs) ∈ sitedInstructions function ∧
    ∀ owned ∈ rest, ∃ reg,
      OwnedDefinition function registration.sites registration.refs owned reg ∧
        ∃ user ∈ registration.sites, ∃ inst,
          (user, inst) ∈ sitedInstructions function ∧ reg ∈ inst.uses

theorem ownedOperands_owned {function : IrFunction} {args : List IrId} {sites : List Site}
    {refs : List IrFunctionId} (found : ownedOperands function args = some (sites, refs))
    {site : Site} (member : site ∈ sites) :
    ∃ reg, OwnedDefinition function sites refs site reg ∧ (reg ∈ args ∨
      ∃ user ∈ sites, ∃ inst, (user, inst) ∈ sitedInstructions function ∧ reg ∈ inst.uses) := by
  unfold ownedOperands at found
  obtain ⟨chains, searched, same⟩ := Option.map_eq_some_iff.mp found
  simp only [Prod.mk.injEq] at same
  obtain ⟨rfl, rfl⟩ := same
  obtain ⟨chain, inChains, inChain⟩ := List.mem_flatMap.mp member
  obtain ⟨arg, isArg, isChain⟩ := mem_of_mapM searched chain inChains
  have moreSites : chain.1 ⊆ chains.flatMap Prod.fst := fun other inOther =>
    List.mem_flatMap.mpr ⟨chain, inChains, inOther⟩
  have moreRefs : chain.2 ⊆ chains.flatMap Prod.snd := fun other inOther =>
    List.mem_flatMap.mpr ⟨chain, inChains, inOther⟩
  obtain ⟨reg, owned, reached⟩ := operandChain_owned isChain inChain
  refine ⟨reg, owned.mono moreSites moreRefs, ?_⟩
  rcases reached with rfl | ⟨user, inSites, inst, sited, used⟩
  · exact Or.inl isArg
  · exact Or.inr ⟨user, moreSites inSites, inst, sited, used⟩

theorem registers?_eq_some {module : BundleModule} {inst : IrInstruction}
    {externId : IrFunctionId} {args : List IrId} {classKeyed : Bool}
    (registers : registers? module inst = some (externId, args, classKeyed)) :
    module.externFunctions.contains externId ∧
      ∃ dest typeArgs, inst = .callDirect dest externId args typeArgs := by
  unfold registers? at registers
  split at registers
  · rename_i dest funcId args' typeArgs
    split at registers
    · cases registers
    · rename_i callee isCallee
      have known : module.externFunctions.contains funcId := by
        rw [OrdMap.contains, isCallee]
        rfl
      split_ifs at registers <;> cases registers <;> exact ⟨known, dest, typeArgs, rfl⟩
  · cases registers

theorem isRegistration_of_found {moduleIdx : Nat} {module : BundleModule} {id : IrFunctionId}
    {function : IrFunction} {registrations : List Registration}
    (found : findRegistrations moduleIdx module id function = some registrations)
    {registration : Registration} (member : registration ∈ registrations) :
    IsRegistration moduleIdx module id function registration := by
  obtain ⟨searched, isSearched, rfl⟩ := Option.map_eq_some_iff.mp found
  have listed : some registration ∈ searched := List.reduceOption_mem_iff.mp member
  obtain ⟨sited, here, made⟩ := mem_of_mapM isSearched _ listed
  unfold registrationAt at made
  split at made
  · cases made
  · rename_i externId args classKeyed registers
    obtain ⟨known, dest, typeArgs, isCall⟩ := registers?_eq_some registers
    split at made
    · cases made
    · rename_i sites refs ownedArgs
      split at made
      · cases made
      · rename_i first others
        obtain ⟨key, _, rfl⟩ := Option.map_eq_some_iff.mp (Option.some.inj made)
        have call : (sited.1, .callDirect dest externId (first :: others) typeArgs) ∈
            sitedInstructions function := by
          rw [← isCall]
          exact here
        refine ⟨rfl, rfl, known, sited.1, sites, dest, _, typeArgs, rfl, call, ?_⟩
        intro site inSites
        obtain ⟨reg, owned, reached⟩ := ownedOperands_owned ownedArgs inSites
        refine ⟨reg, owned.mono (List.subset_cons_self _ _) (List.Subset.refl _), ?_⟩
        rcases reached with isArg | ⟨user, userSite, inst, userHere, used⟩
        · exact ⟨sited.1, List.mem_cons_self, _, call, isArg⟩
        · exact ⟨user, List.mem_cons_of_mem _ userSite, inst, userHere, used⟩

/-- The search goes through exactly when no registration call lacks arguments. -/
theorem findRegistrations_isSome {moduleIdx : Nat} {module : BundleModule} {id : IrFunctionId}
    {function : IrFunction} : (findRegistrations moduleIdx module id function).isSome ↔
      ∀ sited ∈ sitedInstructions function, ∀ externId classKeyed,
        registers? module sited.2 ≠ some (externId, [], classKeyed) := by
  unfold findRegistrations
  rw [Option.isSome_map, mapM_isSome]
  refine forall₂_congr fun sited _ => ?_
  unfold registrationAt
  cases registers : registers? module sited.2 with
  | none => simp
  | some call =>
      obtain ⟨externId, args, classKeyed⟩ := call
      cases args with
      | nil => simp [ownedOperands]
      | cons first others =>
          simp only [ne_eq, Option.some.injEq, Prod.mk.injEq, reduceCtorEq, false_and, and_false,
            not_false_eq_true, implies_true, iff_true]
          split <;> rfl

end Rayzor.Bundle
