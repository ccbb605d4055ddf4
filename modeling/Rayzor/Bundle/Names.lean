import Rayzor.Bundle.Shaken

/-!
Contract: what the modules of a bundle name and define, before and after shaking.

Owns: names and definitions, what it means for shaking to keep them, which
instructions remain, and that what they name in a followed form was reached.

Does not own: references the walk overlooks, or how a backend links names. A name
is an identifier in one of the tables of some module.
-/

namespace Rayzor.Bundle

open Ir
open Library (OrdMap)

/-! ### Names and definitions -/

def DefinesFunction (modules : List BundleModule) (id : IrFunctionId) : Prop :=
  ∃ module ∈ modules, module.functions.contains id

def DefinesExtern (modules : List BundleModule) (id : IrFunctionId) : Prop :=
  ∃ module ∈ modules, module.externFunctions.contains id

def DefinesGlobal (modules : List BundleModule) (id : IrGlobalId) : Prop :=
  ∃ module ∈ modules, module.globals.contains id

/-- An instruction or a constant of a function names the identifier, or the
initializer of a global does. -/
inductive NamesFunction (module : BundleModule) (id : IrFunctionId) : Prop
  | code {func : BundleFunction} {site : Site} {inst : IrInstruction} :
      func ∈ module.functions.values → (site, inst) ∈ sitedInstructions func.function →
      id ∈ namedBy inst → NamesFunction module id
  | data {global : IrGlobal} {value : IrValue} : global ∈ module.globals.values →
      global.initializer = some value → id ∈ functionsNamed value → NamesFunction module id

def NamesGlobal (module : BundleModule) (id : IrGlobalId) : Prop :=
  ∃ func ∈ module.functions.values, ∃ site inst,
    (site, inst) ∈ sitedInstructions func.function ∧ globalNamedBy inst = some id

/-- The functions of a module after shaking are functions it had before, with the
definitions of the registers they use. -/
def Trimmed (before after : BundleModule) : Prop :=
  ∀ id func', after.functions.get? id = some func' →
    ∃ func, before.functions.get? id = some func ∧ DefinitionsKept func.function func'.function

structure KeepsReachable (before after : List BundleModule) : Prop where
  functions : ∀ module ∈ after, ∀ id, NamesFunction module id →
    DefinesFunction before id → DefinesFunction after id
  externs : ∀ module ∈ after, ∀ id, NamesFunction module id →
    DefinesExtern before id → DefinesExtern after id
  globals : ∀ module ∈ after, ∀ id, NamesGlobal module id →
    DefinesGlobal before id → DefinesGlobal after id

/-- Deleting registration calls and their operands takes no definition from a
register that is still used. -/
def DeletesSafely (isMirWrapperFunction : String → Bool) (modules : List BundleModule)
    (entryModule entryFunction : String) : Prop :=
  ∀ entry registrations, findEntry modules entryModule entryFunction = some entry →
    findAllRegistrations modules = some registrations →
    List.Forall₂ Trimmed modules (stripUnreachable
      ((Survey.mk isMirWrapperFunction modules registrations).walkFrom entry) modules)

def ShakesSafely (isMirWrapperFunction : String → Bool) (modules : List BundleModule)
    (entryModule entryFunction : String) : Prop :=
  (∃ after stats,
    treeShakeBundle isMirWrapperFunction modules entryModule entryFunction =
      some (after, stats) ∧ KeepsReachable modules after) ∧
    DeletesSafely isMirWrapperFunction modules entryModule entryFunction

/-- Every call that looks like a registration has a first argument to take its key
from. -/
def RegistrationsHaveArguments (modules : List BundleModule) : Prop :=
  ∀ module ∈ modules, ∀ func ∈ module.functions.values, isStartupFunction func →
    ∀ sited ∈ sitedInstructions func.function, ∀ externId classKeyed,
      registers? module sited.2 ≠ some (externId, [], classKeyed)

/-! ### Where registrations come from -/

/-- What the search for registrations gives, from the functions of the bundle. -/
structure Surveyed (survey : Survey) : Prop where
  found : ∀ registration ∈ survey.registrations, ∃ module func,
    survey.modules[registration.module]? = some module ∧
      module.functions.get? registration.function = some func ∧ isStartupFunction func ∧
      IsRegistration registration.module module registration.function func.function registration

theorem surveyed_of_found {isMirWrapperFunction : String → Bool} {modules : List BundleModule}
    {registrations : List Registration}
    (found : findAllRegistrations modules = some registrations) :
    Surveyed ⟨isMirWrapperFunction, modules, registrations⟩ where
  found registration member := by
    obtain ⟨lists, searched, rfl⟩ := Option.map_eq_some_iff.mp found
    obtain ⟨list, inLists, inList⟩ := List.mem_flatten.mp member
    obtain ⟨hook, isHook, listed⟩ := mem_of_mapM searched list inLists
    obtain ⟨indexed, inModules, isEntry⟩ := List.mem_flatMap.mp isHook
    obtain ⟨item, startup, rfl⟩ := List.mem_map.mp isEntry
    obtain ⟨inFunctions, isStartup⟩ := List.mem_filter.mp startup
    have isRegistration := isRegistration_of_found listed inList
    have isModule := List.mem_zipIdx_iff_getElem?.mp inModules
    have isFunction := (OrdMap.mem_entries_iff _ item.1 item.2).mp inFunctions
    have sameModule : indexed.2 = registration.module := isRegistration.inModule.symm
    have sameFunction : item.1 = registration.function := isRegistration.inFunction.symm
    rw [sameModule] at isModule
    rw [sameFunction] at isFunction
    simp only [sameModule, sameFunction] at isRegistration
    exact ⟨indexed.1, item.2, isModule, isFunction, isStartup, isRegistration⟩

theorem findAllRegistrations_isSome {modules : List BundleModule} :
    (findAllRegistrations modules).isSome ↔ RegistrationsHaveArguments modules := by
  unfold findAllRegistrations RegistrationsHaveArguments
  rw [Option.isSome_map, mapM_isSome]
  simp only [findRegistrations_isSome, List.mem_flatMap, List.mem_map, List.mem_filter]
  constructor
  · intro searched module inModules func inFunctions startup sited here externId classKeyed
    obtain ⟨index, isModule⟩ := List.mem_iff_getElem?.mp inModules
    obtain ⟨id, isFunction⟩ := (OrdMap.mem_values_iff _ _).mp inFunctions
    refine searched ((module, index), (id, func)) ⟨(module, index),
      List.mem_zipIdx_iff_getElem?.mpr isModule, (id, func), ⟨?_, startup⟩, rfl⟩ sited here
      externId classKeyed
    exact (OrdMap.mem_entries_iff _ _ _).mpr isFunction
  · rintro haveArguments hook ⟨indexed, inModules, item, ⟨inFunctions, startup⟩, rfl⟩ sited here
      externId classKeyed
    have isModule := List.mem_of_getElem? (List.mem_zipIdx_iff_getElem?.mp inModules)
    have isFunction := (OrdMap.mem_values_iff _ _).mpr
      ⟨_, (OrdMap.mem_entries_iff _ _ _).mp inFunctions⟩
    exact haveArguments _ isModule _ isFunction startup sited here externId classKeyed

/-! ### Owners -/

section Owners

variable {survey : Survey} {id : IrFunctionId}

theorem definesFunction_iff :
    DefinesFunction survey.modules id ↔ ∃ module, (survey.getFunction (module, id)).isSome := by
  simp only [DefinesFunction, Survey.getFunction, OrdMap.contains]
  constructor
  · rintro ⟨module, member, contains⟩
    obtain ⟨index, isModule⟩ := List.mem_iff_getElem?.mp member
    exact ⟨index, by rw [isModule]; exact contains⟩
  · rintro ⟨index, contains⟩
    cases isModule : survey.modules[index]? with
    | none => simp [isModule] at contains
    | some module => exact ⟨module, List.mem_of_getElem? isModule, by simpa [isModule] using contains⟩

theorem definesExtern_iff :
    DefinesExtern survey.modules id ↔ ∃ module, (survey.getExtern (module, id)).isSome := by
  simp only [DefinesExtern, Survey.getExtern, OrdMap.contains]
  constructor
  · rintro ⟨module, member, contains⟩
    obtain ⟨index, isModule⟩ := List.mem_iff_getElem?.mp member
    exact ⟨index, by rw [isModule]; exact contains⟩
  · rintro ⟨index, contains⟩
    cases isModule : survey.modules[index]? with
    | none => simp [isModule] at contains
    | some module => exact ⟨module, List.mem_of_getElem? isModule, by simpa [isModule] using contains⟩

theorem ownerOf_function {module : Nat} (owned : survey.ownerOf id = some (module, false)) :
    (survey.getFunction (module, id)).isSome := by
  obtain ⟨indexed, member, isOwner⟩ := List.exists_of_findSome?_eq_some owned
  have isModule := List.mem_zipIdx_iff_getElem?.mp member
  split_ifs at isOwner with contains <;> cases isOwner
  rw [Survey.getFunction, isModule]
  exact contains

theorem ownerOf_extern {module : Nat} (owned : survey.ownerOf id = some (module, true)) :
    (survey.getExtern (module, id)).isSome := by
  obtain ⟨indexed, member, isOwner⟩ := List.exists_of_findSome?_eq_some owned
  have isModule := List.mem_zipIdx_iff_getElem?.mp member
  split_ifs at isOwner with notFunction contains <;> cases isOwner
  rw [Survey.getExtern, isModule]
  exact contains

theorem ownerOf_none (unowned : survey.ownerOf id = none) :
    ¬DefinesFunction survey.modules id ∧ ¬DefinesExtern survey.modules id := by
  have nowhere := List.findSome?_eq_none_iff.mp unowned
  constructor
  · rintro ⟨module, member, contains⟩
    obtain ⟨index, isModule⟩ := List.mem_iff_getElem?.mp member
    have absent := nowhere (module, index) (List.mem_zipIdx_iff_getElem?.mpr isModule)
    simp [contains] at absent
  · rintro ⟨module, member, contains⟩
    obtain ⟨index, isModule⟩ := List.mem_iff_getElem?.mp member
    have absent := nowhere (module, index) (List.mem_zipIdx_iff_getElem?.mpr isModule)
    simp only [contains, if_true] at absent
    split_ifs at absent

theorem targetFunction_of_defined (defined : DefinesFunction survey.modules id)
    (notExtern : ¬DefinesExtern survey.modules id) :
    ∃ module, survey.targetFunction id = some (module, id) ∧
      (survey.getFunction (module, id)).isSome := by
  cases owned : survey.ownerOf id with
  | none => exact absurd defined (ownerOf_none owned).1
  | some owner =>
      obtain ⟨module, onlyDeclared⟩ := owner
      cases onlyDeclared with
      | false => exact ⟨module, by rw [Survey.targetFunction, owned], ownerOf_function owned⟩
      | true => exact absurd (definesExtern_iff.mpr ⟨module, ownerOf_extern owned⟩) notExtern

theorem targetExtern_of_defined (defined : DefinesExtern survey.modules id)
    (notFunction : ¬DefinesFunction survey.modules id) :
    ∃ module, survey.targetExtern id = some (module, id) ∧
      (survey.getExtern (module, id)).isSome := by
  cases owned : survey.ownerOf id with
  | none => exact absurd defined (ownerOf_none owned).2
  | some owner =>
      obtain ⟨module, onlyDeclared⟩ := owner
      cases onlyDeclared with
      | false => exact absurd (definesFunction_iff.mpr ⟨module, ownerOf_function owned⟩) notFunction
      | true => exact ⟨module, by rw [Survey.targetExtern, owned], ownerOf_extern owned⟩

end Owners

/-! ### The references that are followed -/

section Followed

variable {survey : Survey} {entry : Place}

structure Remains (survey : Survey) (entry : Place) (place : Place) (func : BundleFunction)
    (site : Site) (inst : IrInstruction) : Prop where
  reached : place ∈ (survey.walkFrom entry).functions
  found : survey.getFunction place = some func
  here : (site, inst) ∈ sitedInstructions func.function
  notDropped : site ∉ droppedSites (survey.walkFrom entry).pending place

theorem Remains.kept {place : Place} {func : BundleFunction} {site : Site} {inst : IrInstruction}
    (remains : Remains survey entry place func site inst) {registration : Registration}
    (listed : registration ∈ survey.registrations)
    (same : (registration.module, registration.function) = place)
    (member : site ∈ registration.sites) : registration ∈ (survey.walkFrom entry).kept := by
  by_contra notKept
  exact remains.notDropped (mem_droppedSites.mpr
    ⟨registration, (Survey.pending_iff listed).mpr notKept, same, member⟩)

/-- How an instruction that remains was dealt with: walked with its function, or
taken along with a registration that was kept. -/
theorem Remains.cases (surveyed : Surveyed survey) {place : Place} {func : BundleFunction}
    {site : Site} {inst : IrInstruction} (remains : Remains survey entry place func site inst) :
    inst ∈ survey.scanned place func ∨
      ∃ registration ∈ (survey.walkFrom entry).kept, globalNamedBy inst = none ∧
        ((∃ dest args typeArgs, inst = .callDirect dest registration.externId args typeArgs ∧
          (survey.getExtern (registration.module, registration.externId)).isSome) ∨
            ∀ id ∈ followedBy inst, id ∈ registration.refs) := by
  cases deferred : survey.isDeferred place site with
  | false =>
      refine Or.inl (List.mem_map.mpr ⟨(site, inst), List.mem_filter.mpr ⟨remains.here, ?_⟩, rfl⟩)
      simp [deferred]
  | true =>
      obtain ⟨registration, listed, at'⟩ := List.any_eq_true.mp deferred
      simp only [Bool.and_eq_true, beq_iff_eq, List.contains_eq_mem, decide_eq_true_eq] at at'
      obtain ⟨same, member⟩ := at'
      obtain ⟨module, func', isModule, isFunction, -, isRegistration⟩ :=
        surveyed.found registration listed
      have found' : survey.getFunction place = some func' := by
        rw [← same, Survey.getFunction, isModule]
        exact isFunction
      rw [remains.found] at found'
      obtain rfl := Option.some.inj found'
      refine Or.inr ⟨registration, remains.kept listed same member, ?_⟩
      obtain ⟨callSite, rest, dest, args, typeArgs, sites, call, owned⟩ := isRegistration.call
      rw [sites] at member
      rcases List.mem_cons.mp member with rfl | inRest
      · obtain rfl := sited_unique remains.here call
        refine ⟨rfl, Or.inl ⟨dest, args, typeArgs, rfl, ?_⟩⟩
        rw [Survey.getExtern, isModule]
        exact isRegistration.callee
      · obtain ⟨reg, definition, -⟩ := owned site inRest
        obtain ⟨inst', here, -, noGlobal, named⟩ := definition.defined
        obtain rfl := sited_unique remains.here here
        exact ⟨noGlobal, Or.inr named⟩

theorem Remains.function (surveyed : Surveyed survey) {place : Place} {func : BundleFunction}
    {site : Site} {inst : IrInstruction} (remains : Remains survey entry place func site inst)
    {id : IrFunctionId} (followed : id ∈ followedBy inst)
    (defined : DefinesFunction survey.modules id) (notExtern : ¬DefinesExtern survey.modules id) :
    ∃ module, (survey.getFunction (module, id)).isSome ∧
      (module, id) ∈ (survey.walkFrom entry).functions := by
  have settled := (Survey.walkFrom_spec survey entry).1
  obtain ⟨module, leads, isFunction⟩ := targetFunction_of_defined defined notExtern
  refine ⟨module, isFunction, settled.function ?_⟩
  rcases remains.cases surveyed with scanned | ⟨registration, kept, -, call | refs⟩
  · refine settled.complete.pushes place remains.reached _ ?_
    rw [Survey.pushes, remains.found]
    exact List.mem_append_right _ (List.mem_filterMap.mpr
      ⟨id, List.mem_flatMap.mpr ⟨inst, scanned, followed⟩, leads⟩)
  · obtain ⟨dest, args, typeArgs, rfl, isExtern⟩ := call
    rw [followedBy, List.mem_singleton] at followed
    rw [followed] at notExtern
    exact absurd (definesExtern_iff.mpr ⟨_, isExtern⟩) notExtern
  · exact (settled.complete.kept registration kept).functions id (refs id followed) _ leads

theorem Remains.external (surveyed : Surveyed survey) {place : Place} {func : BundleFunction}
    {site : Site} {inst : IrInstruction} (remains : Remains survey entry place func site inst)
    {id : IrFunctionId} (followed : id ∈ followedBy inst)
    (defined : DefinesExtern survey.modules id) (notFunction : ¬DefinesFunction survey.modules id) :
    ∃ module, (survey.getExtern (module, id)).isSome ∧
      Mark.external (module, id) ∈ (survey.walkFrom entry).marks := by
  have settled := (Survey.walkFrom_spec survey entry).1
  obtain ⟨module, leads, isExtern⟩ := targetExtern_of_defined defined notFunction
  rcases remains.cases surveyed with scanned | ⟨registration, kept, -, call | refs⟩
  · refine ⟨module, isExtern, settled.complete.marks place remains.reached _ ?_⟩
    rw [Survey.marksOf, remains.found]
    refine List.mem_flatMap.mpr ⟨inst, scanned, ?_⟩
    refine List.mem_append_left _ (List.mem_append_right _ (List.mem_map.mpr ⟨_, ?_, rfl⟩))
    exact List.mem_filterMap.mpr ⟨id, followed, leads⟩
  · obtain ⟨dest, args, typeArgs, rfl, known⟩ := call
    rw [followedBy, List.mem_singleton] at followed
    rw [followed]
    exact ⟨registration.module, known, (settled.complete.kept registration kept).callee⟩
  · exact ⟨module, isExtern,
      (settled.complete.kept registration kept).externs id (refs id followed) _ leads⟩

theorem Remains.global (surveyed : Surveyed survey) {place : Place} {func : BundleFunction}
    {site : Site} {inst : IrInstruction} (remains : Remains survey entry place func site inst)
    {id : IrGlobalId} (named : globalNamedBy inst = some id) :
    Mark.global (place.1, id) ∈ (survey.walkFrom entry).marks := by
  have settled := (Survey.walkFrom_spec survey entry).1
  rcases remains.cases surveyed with scanned | ⟨_, -, noGlobal, -⟩
  · refine settled.complete.marks place remains.reached _ ?_
    rw [Survey.marksOf, remains.found]
    refine List.mem_flatMap.mpr ⟨inst, scanned, List.mem_append_right _ ?_⟩
    rw [named]
    exact List.mem_singleton_self _
  · rw [noGlobal] at named
    cases named

end Followed

/-! ### Stripped modules -/

section Stripped

variable {survey : Survey} {entry : Place}

def shaken (survey : Survey) (entry : Place) : List BundleModule :=
  (stripUnreachable (survey.walkFrom entry) survey.modules).filter BundleModule.hasCode

theorem mem_shaken {module' : BundleModule} : module' ∈ shaken survey entry ↔
    ∃ index module, survey.modules[index]? = some module ∧
      module' = shakeModule (survey.walkFrom entry) index module ∧ module'.hasCode := by
  rw [shaken, List.mem_filter, mem_stripped]
  constructor
  · rintro ⟨⟨index, module, isModule, same⟩, hasCode⟩
    exact ⟨index, module, isModule, same, hasCode⟩
  · rintro ⟨index, module, isModule, same, hasCode⟩
    exact ⟨⟨index, module, isModule, same⟩, hasCode⟩

theorem hasCode_of_function {module : BundleModule} {id : IrFunctionId} {func : BundleFunction}
    (found : module.functions.get? id = some func) : module.hasCode = true := by
  have member := (OrdMap.mem_entries_iff _ _ _).mpr found
  have nonempty := List.ne_nil_of_mem member
  simp [BundleModule.hasCode, nonempty]

theorem hasCode_of_extern {module : BundleModule} {id : IrFunctionId}
    (contains : module.externFunctions.contains id) : module.hasCode = true := by
  obtain ⟨callee, found⟩ := (OrdMap.contains_iff _ _).mp contains
  have nonempty := List.ne_nil_of_mem ((OrdMap.mem_entries_iff _ _ _).mpr found)
  simp [BundleModule.hasCode, nonempty]

theorem isSome_getFunction {place : Place} {func : BundleFunction} :
    survey.getFunction place = some func ↔ ∃ module, survey.modules[place.1]? = some module ∧
      module.functions.get? place.2 = some func := by
  simp only [Survey.getFunction, Option.bind_eq_some_iff]

/-- A function is still defined exactly when some place of it was reached. -/
theorem definesFunction_shaken {id : IrFunctionId} : DefinesFunction (shaken survey entry) id ↔
    ∃ module, (survey.getFunction (module, id)).isSome ∧
      (module, id) ∈ (survey.walkFrom entry).functions := by
  constructor
  · rintro ⟨module', member, contains⟩
    obtain ⟨index, module, isModule, rfl, -⟩ := mem_shaken.mp member
    obtain ⟨func', found'⟩ := (OrdMap.contains_iff _ _).mp contains
    obtain ⟨reached, func, found, -⟩ := get?_shakenFunctions.mp found'
    refine ⟨index, ?_, reached⟩
    rw [isSome_getFunction.mpr ⟨module, isModule, found⟩]
    rfl
  · rintro ⟨index, isFunction, reached⟩
    obtain ⟨func, found⟩ := Option.isSome_iff_exists.mp isFunction
    obtain ⟨module, isModule, inModule⟩ := isSome_getFunction.mp found
    have found' := get?_shakenFunctions.mpr ⟨reached, func, inModule, rfl⟩
    exact ⟨_, mem_shaken.mpr ⟨index, module, isModule, rfl, hasCode_of_function found'⟩,
      (OrdMap.contains_iff _ _).mpr ⟨_, found'⟩⟩

theorem definesExtern_shaken {id : IrFunctionId} : DefinesExtern (shaken survey entry) id ↔
    ∃ module, (survey.getExtern (module, id)).isSome ∧
      Mark.external (module, id) ∈ (survey.walkFrom entry).marks := by
  constructor
  · rintro ⟨module', member, contains⟩
    obtain ⟨index, module, isModule, rfl, -⟩ := mem_shaken.mp member
    obtain ⟨marked, known⟩ := get?_shakenExterns.mp contains
    refine ⟨index, ?_, marked⟩
    rw [Survey.getExtern, isModule]
    exact known
  · rintro ⟨index, isExtern, marked⟩
    obtain ⟨callee, found⟩ := Option.isSome_iff_exists.mp isExtern
    obtain ⟨module, isModule, inModule⟩ := Option.bind_eq_some_iff.mp found
    have contains := get?_shakenExterns.mpr
      ⟨marked, (OrdMap.contains_iff module.externFunctions id).mpr ⟨callee, inModule⟩⟩
    exact ⟨_, mem_shaken.mpr ⟨index, module, isModule, rfl, hasCode_of_extern contains⟩, contains⟩

theorem hasCode_of_marked {index : Nat} {module : BundleModule} {id : IrGlobalId}
    (isModule : survey.modules[index]? = some module)
    (marked : Mark.global (index, id) ∈ (survey.walkFrom entry).marks) :
    (shakeModule (survey.walkFrom entry) index module).hasCode = true := by
  obtain ⟨place, reached, marks⟩ := (Survey.walkFrom_spec survey entry).1.complete.globals _ marked
  unfold Survey.marksOf at marks
  split at marks
  · split_ifs at marks
    · rw [List.mem_singleton] at marks
      cases marks
    · exact absurd marks List.not_mem_nil
  · rename_i func isFunction
    obtain ⟨inst, -, marks⟩ := List.mem_flatMap.mp marks
    have sameModule : index = place.1 := by
      simp only [Survey.marksOfInstruction, List.mem_append, List.mem_map, reduceCtorEq,
        and_false, exists_false, false_or, Mark.global.injEq, Prod.mk.injEq] at marks
      obtain ⟨_, _, same, _⟩ := marks
      exact same.symm
    obtain ⟨module', isModule', inModule⟩ := isSome_getFunction.mp isFunction
    rw [← sameModule, isModule] at isModule'
    obtain rfl := Option.some.inj isModule'
    have left := get?_shakenFunctions.mpr ⟨reached, func, inModule, rfl⟩
    rw [← sameModule] at left
    exact hasCode_of_function left

theorem definesGlobal_shaken {id : IrGlobalId} : DefinesGlobal (shaken survey entry) id ↔
    ∃ index module, survey.modules[index]? = some module ∧ module.globals.contains id ∧
      Mark.global (index, id) ∈ (survey.walkFrom entry).marks := by
  constructor
  · rintro ⟨module', member, contains⟩
    obtain ⟨index, module, isModule, rfl, -⟩ := mem_shaken.mp member
    obtain ⟨global, found⟩ := (OrdMap.contains_iff _ _).mp contains
    obtain ⟨marked, found'⟩ := get?_shakenGlobals.mp found
    exact ⟨index, module, isModule, (OrdMap.contains_iff _ _).mpr ⟨global, found'⟩, marked⟩
  · rintro ⟨index, module, isModule, contains, marked⟩
    obtain ⟨global, found⟩ := (OrdMap.contains_iff _ _).mp contains
    have found' := get?_shakenGlobals.mpr ⟨marked, found⟩
    exact ⟨_, mem_shaken.mpr ⟨index, module, isModule, rfl, hasCode_of_marked isModule marked⟩,
      (OrdMap.contains_iff _ _).mpr ⟨_, found'⟩⟩

theorem code_shaken {index : Nat} {module : BundleModule}
    (isModule : survey.modules[index]? = some module) {inst : IrInstruction} :
    (∃ func' ∈ (shakeModule (survey.walkFrom entry) index module).functions.values,
        ∃ site, (site, inst) ∈ sitedInstructions func'.function) ↔
      ∃ id func site, Remains survey entry (index, id) func site inst := by
  constructor
  · rintro ⟨func', member, here⟩
    obtain ⟨id, found'⟩ := (OrdMap.mem_values_iff _ _).mp member
    obtain ⟨reached, func, found, rfl⟩ := get?_shakenFunctions.mp found'
    obtain ⟨site, here, notDropped⟩ := sited_dropSites.mp here
    exact ⟨id, func, site, reached, isSome_getFunction.mpr ⟨module, isModule, found⟩, here,
      notDropped⟩
  · rintro ⟨id, func, site, reached, found, here, notDropped⟩
    obtain ⟨module', isModule', inModule⟩ := isSome_getFunction.mp found
    rw [isModule] at isModule'
    obtain rfl := Option.some.inj isModule'
    have found' := get?_shakenFunctions.mpr ⟨reached, func, inModule, rfl⟩
    exact ⟨_, (OrdMap.mem_values_iff _ _).mpr ⟨id, found'⟩,
      sited_dropSites.mpr ⟨site, here, notDropped⟩⟩

end Stripped

end Rayzor.Bundle
