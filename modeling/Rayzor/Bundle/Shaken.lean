import Rayzor.Bundle.Walk

/-!
Contract: what is left of a module once the walk is over.
-/

namespace Rayzor.Bundle

open Ir
open Library (OrdMap)

/-- For each register still used, its definitions are still there, in every block
and in the same order. -/
def DefinitionsKept (function function' : IrFunction) : Prop :=
  ∀ reg ∈ allUses function', ∀ id block, function.getBlock id = some block →
    ∃ block', function'.getBlock id = some block' ∧
      (block'.instructions.filter fun inst => inst.writes == some reg) =
        block.instructions.filter fun inst => inst.writes == some reg

section Deletion

variable {function : IrFunction} {sites : List Site}

def dropInBlock (sites : List Site) (id : IrBlockId) (block : IrBasicBlock) : IrBasicBlock :=
  { block with
    instructions := (block.instructions.zipIdx.filter fun indexed =>
      !sites.contains (id, indexed.2)).map Prod.fst }

theorem getBlock_dropSites (id : IrBlockId) : (dropSites sites function).getBlock id =
    (function.getBlock id).map (dropInBlock sites id) :=
  OrdMap.get?_mapValues _ function.cfg.blocks id

/-- The instructions left are those that stood elsewhere. -/
theorem sited_dropSites {inst : IrInstruction} :
    (∃ site, (site, inst) ∈ sitedInstructions (dropSites sites function)) ↔
      ∃ site, (site, inst) ∈ sitedInstructions function ∧ site ∉ sites := by
  constructor
  · rintro ⟨site, here⟩
    obtain ⟨block', found', at'⟩ := mem_sitedInstructions.mp here
    rw [getBlock_dropSites] at found'
    obtain ⟨block, found, rfl⟩ := Option.map_eq_some_iff.mp found'
    obtain ⟨indexed, kept, rfl⟩ := List.mem_map.mp (List.mem_of_getElem? at')
    obtain ⟨inBlock, outside⟩ := List.mem_filter.mp kept
    refine ⟨(site.1, indexed.2), mem_sitedInstructions.mpr ⟨block, found, ?_⟩, by simpa using outside⟩
    exact List.mem_zipIdx_iff_getElem?.mp inBlock
  · rintro ⟨site, here, outside⟩
    obtain ⟨block, found, at'⟩ := mem_sitedInstructions.mp here
    have kept : inst ∈ (dropInBlock sites site.1 block).instructions := by
      refine List.mem_map.mpr ⟨(inst, site.2), List.mem_filter.mpr ⟨?_, by simpa using outside⟩, rfl⟩
      exact List.mem_zipIdx_iff_getElem?.mpr at'
    obtain ⟨index, atIndex⟩ := List.mem_iff_getElem?.mp kept
    refine ⟨(site.1, index), mem_sitedInstructions.mpr ⟨_, ?_, atIndex⟩⟩
    rw [getBlock_dropSites, found]
    rfl

/-- The uses left are those of the instructions left, of the phis and of the
terminators. -/
theorem mem_allUses_dropSites {reg : IrId} : reg ∈ allUses (dropSites sites function) ↔
    ∃ tag, (tag, reg) ∈ taggedUses function ∧ ∀ site, tag = some site → site ∉ sites := by
  have split : ∀ {function : IrFunction}, reg ∈ allUses function ↔
      (∃ inst, (∃ site, (site, inst) ∈ sitedInstructions function) ∧ reg ∈ inst.uses) ∨
        ∃ id block, function.getBlock id = some block ∧
          (reg ∈ phiUses block ∨ reg ∈ (terminatorUse block.terminator).toList) := by
    intro function
    simp only [allUses, List.mem_flatMap, List.mem_append, OrdMap.mem_values_iff]
    constructor
    · rintro ⟨block, ⟨id, found⟩, (⟨inst, inBlock, used⟩ | phi) | term⟩
      · obtain ⟨index, at'⟩ := List.mem_iff_getElem?.mp inBlock
        exact Or.inl ⟨inst, ⟨(id, index), mem_sitedInstructions.mpr ⟨block, found, at'⟩⟩, used⟩
      · exact Or.inr ⟨id, block, found, Or.inl phi⟩
      · exact Or.inr ⟨id, block, found, Or.inr term⟩
    · rintro (⟨inst, ⟨site, here⟩, used⟩ | ⟨id, block, found, phi | term⟩)
      · obtain ⟨block, found, at'⟩ := mem_sitedInstructions.mp here
        exact ⟨block, ⟨_, found⟩, Or.inl (Or.inl ⟨inst, List.mem_of_getElem? at', used⟩)⟩
      · exact ⟨block, ⟨id, found⟩, Or.inl (Or.inr phi)⟩
      · exact ⟨block, ⟨id, found⟩, Or.inr term⟩
  have tagged : (none, reg) ∈ taggedUses function ↔ ∃ id block,
      function.getBlock id = some block ∧
        (reg ∈ phiUses block ∨ reg ∈ (terminatorUse block.terminator).toList) := by
    simp only [taggedUses, List.mem_flatMap, List.mem_append, List.mem_map, Prod.mk.injEq,
      reduceCtorEq, false_and, and_false, exists_false, false_or, true_and, exists_eq_right,
      Prod.exists, OrdMap.mem_entries_iff]
    rfl
  rw [split]
  constructor
  · rintro (⟨inst, left, used⟩ | ⟨id, block', found', outside⟩)
    · obtain ⟨site, here, notDropped⟩ := sited_dropSites.mp left
      refine ⟨some site, tagged_of_sited here used, fun other same => ?_⟩
      rwa [← Option.some.inj same]
    · rw [getBlock_dropSites] at found'
      obtain ⟨block, found, rfl⟩ := Option.map_eq_some_iff.mp found'
      exact ⟨none, tagged.mpr ⟨id, block, found, outside⟩, fun _ absurdly => by cases absurdly⟩
  · rintro ⟨tag, used, notDropped⟩
    cases tag with
    | none =>
        obtain ⟨id, block, found, outside⟩ := tagged.mp used
        refine Or.inr ⟨id, dropInBlock sites id block, ?_, outside⟩
        rw [getBlock_dropSites, found]
        rfl
    | some site =>
        simp only [taggedUses, List.mem_flatMap, List.mem_append, List.mem_map, Prod.mk.injEq,
          reduceCtorEq, false_and, and_false, exists_false, or_false, Option.some.injEq] at used
        obtain ⟨entry, member, indexed, inBlock, other, used, same, rfl⟩ := used
        subst same
        refine Or.inl ⟨indexed.1, sited_dropSites.mpr ⟨_, ?_, notDropped _ rfl⟩, used⟩
        exact mem_sitedInstructions.mpr ⟨entry.2, (OrdMap.mem_entries_iff _ _ _).mp member,
          List.mem_zipIdx_iff_getElem?.mp inBlock⟩

theorem filter_kept_iff {α : Type} (items : List (α × Nat)) (keep : α × Nat → Bool)
    (select : α → Bool) :
    ((items.filter keep).map Prod.fst).filter select = (items.map Prod.fst).filter select ↔
      ∀ item ∈ items, select item.1 = true → keep item = true := by
  induction items with
  | nil => simp
  | cons item rest ih =>
      have shorter : (((rest.filter keep).map Prod.fst).filter select).length ≤
          ((rest.map Prod.fst).filter select).length :=
        ((List.filter_sublist.map _).filter _).length_le
      rw [List.forall_mem_cons, ← ih]
      cases kept : keep item <;> cases selected : select item.1 <;>
        simp only [List.filter_cons, kept, selected, List.map_cons, if_true, if_false,
          Bool.false_eq_true, forall_const, false_implies, true_and, List.cons.injEq,
          imp_self, false_and, iff_false]
      intro same
      rw [same, List.length_cons] at shorter
      omega

/-- Deleting by sites keeps the definitions in use exactly when no site deleted
defines a register used elsewhere. -/
theorem definitionsKept_iff : DefinitionsKept function (dropSites sites function) ↔
    ∀ tag reg, (tag, reg) ∈ taggedUses function → (∀ site, tag = some site → site ∉ sites) →
      ∀ site inst, (site, inst) ∈ sitedInstructions function → inst.writes = some reg →
        site ∉ sites := by
  have blockwise : ∀ reg id block, (((dropInBlock sites id block).instructions.filter fun inst =>
      inst.writes == some reg) = block.instructions.filter fun inst => inst.writes == some reg) ↔
      ∀ index inst, block.instructions[index]? = some inst → inst.writes = some reg →
        (id, index) ∉ sites := by
    intro reg id block
    have fromZip := filter_kept_iff block.instructions.zipIdx
      (fun indexed => !sites.contains (id, indexed.2)) fun inst => inst.writes == some reg
    rw [List.zipIdx_map_fst] at fromZip
    refine fromZip.trans ⟨fun kept index inst here writes => ?_, fun kept indexed member writes => ?_⟩
    · have keep := kept (inst, index) (List.mem_zipIdx_iff_getElem?.mpr here) (by simpa using writes)
      simpa using keep
    · have keep := kept indexed.2 indexed.1 (List.mem_zipIdx_iff_getElem?.mp member)
        (by simpa using writes)
      simpa using keep
  constructor
  · intro keeps tag reg used notDropped site inst here writes
    obtain ⟨block, found, at'⟩ := mem_sitedInstructions.mp here
    obtain ⟨block', found', same⟩ :=
      keeps reg (mem_allUses_dropSites.mpr ⟨tag, used, notDropped⟩) site.1 block found
    rw [getBlock_dropSites, found] at found'
    obtain rfl := Option.some.inj found'
    exact (blockwise reg site.1 block).mp same site.2 inst at' writes
  · intro keeps reg used id block found
    obtain ⟨tag, isUse, notDropped⟩ := mem_allUses_dropSites.mp used
    refine ⟨dropInBlock sites id block, by rw [getBlock_dropSites, found]; rfl, ?_⟩
    refine (blockwise reg id block).mpr fun index inst here writes => ?_
    exact keeps tag reg isUse notDropped (id, index) inst
      (mem_sitedInstructions.mpr ⟨block, found, here⟩) writes

end Deletion

section Left

variable {walk : Survey.Walk}

theorem mem_stripped {modules : List BundleModule} {module' : BundleModule} :
    module' ∈ stripUnreachable walk modules ↔
      ∃ index module, modules[index]? = some module ∧ module' = shakeModule walk index module := by
  simp only [stripUnreachable, List.mem_map, Prod.exists, List.mem_zipIdx_iff_getElem?]
  constructor
  · rintro ⟨module, index, isModule, rfl⟩
    exact ⟨index, module, isModule, rfl⟩
  · rintro ⟨index, module, isModule, rfl⟩
    exact ⟨module, index, isModule, rfl⟩

theorem get?_shakenFunctions {index : Nat} {module : BundleModule} {id : IrFunctionId}
    {func' : BundleFunction} :
    (shakeModule walk index module).functions.get? id = some func' ↔
      (index, id) ∈ walk.functions ∧ ∃ func, module.functions.get? id = some func ∧
        func' = { func with
          function := dropSites (droppedSites walk.pending (index, id)) func.function } := by
  have lookup : (shakeModule walk index module).functions.get? id =
      ((module.functions.mapValues fun id func => { func with
        function := dropSites (droppedSites walk.pending (index, id)) func.function }).filter
          fun id _ => walk.functions.contains (index, id)).get? id := rfl
  rw [lookup, OrdMap.get?_filter, OrdMap.get?_mapValues, Option.filter_eq_some_iff,
    Option.map_eq_some_iff]
  simp only [List.contains_eq_mem, decide_eq_true_eq]
  rw [and_comm]
  refine and_congr_right fun _ => exists_congr fun func => and_congr_right fun _ => eq_comm

theorem get?_shakenExterns {index : Nat} {module : BundleModule} {id : IrFunctionId} :
    (shakeModule walk index module).externFunctions.contains id ↔
      Mark.external (index, id) ∈ walk.marks ∧ module.externFunctions.contains id := by
  have lookup : (shakeModule walk index module).externFunctions.get? id =
      (module.externFunctions.filter fun id _ =>
        walk.marks.contains (.external (index, id))).get? id := rfl
  rw [OrdMap.contains, OrdMap.contains, lookup, OrdMap.get?_filter]
  cases module.externFunctions.get? id <;> simp [Option.filter]

theorem get?_shakenGlobals {index : Nat} {module : BundleModule} {id : IrGlobalId}
    {global : IrGlobal} : (shakeModule walk index module).globals.get? id = some global ↔
      Mark.global (index, id) ∈ walk.marks ∧ module.globals.get? id = some global := by
  have lookup : (shakeModule walk index module).globals.get? id =
      (module.globals.filter fun id _ =>
        walk.marks.contains (.global (index, id))).get? id := rfl
  rw [lookup, OrdMap.get?_filter]
  cases module.globals.get? id <;> simp [Option.filter_eq_some_iff, and_comm]

theorem mem_droppedSites {pending : List Registration} {place : Place} {site : Site} :
    site ∈ droppedSites pending place ↔ ∃ registration ∈ pending,
      (registration.module, registration.function) = place ∧ site ∈ registration.sites := by
  simp only [droppedSites, List.mem_flatMap, List.mem_filter, beq_iff_eq, and_assoc]

end Left

end Rayzor.Bundle
