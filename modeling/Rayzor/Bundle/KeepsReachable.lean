import Rayzor.Bundle.Names

/-!
Contract: a shaken bundle still defines what it names, exactly when what the walk
overlooks is live by another route.

Owns: the references the walk overlooks, and both directions: a bundle with
nothing overlooked is shaken safely, and only such a bundle is.

Does not own: bundles whose classes have more ancestors than one round of the walk
climbs; for these only the first direction is stated.
-/

namespace Rayzor.Bundle

open Ir
open Library (OrdMap)

/-! ### What the walk overlooks -/

section Overlooked

variable (survey : Survey) (entry : Place)

/-- An instruction of a live function that does not belong to a registration for
something dead. -/
def LeftIn (place : Place) (inst : IrInstruction) : Prop :=
  Live survey entry survey.InheritsFar (.function place) ∧
    ∃ func site, survey.getFunction place = some func ∧
      (site, inst) ∈ sitedInstructions func.function ∧
      ∀ registration ∈ survey.registrations, (registration.module, registration.function) = place →
        site ∈ registration.sites →
        Live survey entry survey.InheritsFar (.registration registration)

/-- An identifier is named where the walk does not look: inside a constant, in the
initializer of a global, or by code when it is both a function and an extern. -/
inductive Overlooked (id : IrFunctionId) : Prop
  | inside {place : Place} {inst : IrInstruction} : LeftIn survey entry place inst →
      id ∈ namedBy inst → id ∉ followedBy inst → Overlooked id
  | ambiguous {place : Place} {inst : IrInstruction} : LeftIn survey entry place inst →
      id ∈ namedBy inst → DefinesFunction survey.modules id →
      DefinesExtern survey.modules id → Overlooked id
  | initializer {place : Nat × IrGlobalId} {module : BundleModule} {global : IrGlobal}
      {value : IrValue} : Live survey entry survey.InheritsFar (.mark (.global place)) →
      survey.modules[place.1]? = some module → module.globals.get? place.2 = some global →
      global.initializer = some value → id ∈ functionsNamed value → Overlooked id

def FunctionLive (id : IrFunctionId) : Prop :=
  ∃ module, (survey.getFunction (module, id)).isSome ∧
    Live survey entry survey.InheritsNear (.function (module, id))

def ExternLive (id : IrFunctionId) : Prop :=
  ∃ module, (survey.getExtern (module, id)).isSome ∧
    Live survey entry survey.InheritsNear (.mark (.external (module, id)))

def GlobalLive (id : IrGlobalId) : Prop :=
  ∃ index module, survey.modules[index]? = some module ∧ module.globals.contains id ∧
    Live survey entry survey.InheritsNear (.mark (.global (index, id)))

/-- What the walk overlooks is live all the same, and nothing reads the result of
a registration call that may go. -/
structure OverlooksNothing : Prop where
  functions : ∀ id, Overlooked survey entry id → DefinesFunction survey.modules id →
    FunctionLive survey entry id
  externs : ∀ id, Overlooked survey entry id → DefinesExtern survey.modules id →
    ExternLive survey entry id
  globals : ∀ place inst id, LeftIn survey entry place inst → globalNamedBy inst = some id →
    DefinesGlobal survey.modules id →
    (∃ module, survey.modules[place.1]? = some module ∧ module.globals.contains id) ∨
      GlobalLive survey entry id
  results : ∀ registration ∈ survey.registrations,
    ¬Live survey entry survey.InheritsNear (.registration registration) →
    ∀ func site inst reg,
      survey.getFunction (registration.module, registration.function) = some func →
      registration.sites.head? = some site → (site, inst) ∈ sitedInstructions func.function →
      inst.writes = some reg → ∀ tag, (tag, reg) ∈ taggedUses func.function →
      ∃ user, tag = some user ∧ ∃ other ∈ survey.registrations,
        (other.module, other.function) = (registration.module, registration.function) ∧
          user ∈ other.sites ∧ ¬Live survey entry survey.InheritsFar (.registration other)

end Overlooked

/-! ### Keeping what is named -/

section Keeping

variable {survey : Survey} {entry : Place}

theorem Remains.leftIn {place : Place} {func : BundleFunction} {site : Site} {inst : IrInstruction}
    (remains : Remains survey entry place func site inst) : LeftIn survey entry place inst := by
  refine ⟨Survey.live_of_reached (.function place) remains.reached, func, site,
    remains.found, remains.here, fun registration listed same member => ?_⟩
  exact Survey.live_of_reached (.registration registration)
    (remains.kept listed same member)

theorem defines_of_functionLive {id : IrFunctionId} (live : FunctionLive survey entry id) :
    DefinesFunction (shaken survey entry) id := by
  obtain ⟨module, isFunction, isLive⟩ := live
  exact definesFunction_shaken.mpr ⟨module, isFunction, Survey.reached_of_live isLive⟩

theorem defines_of_externLive {id : IrFunctionId} (live : ExternLive survey entry id) :
    DefinesExtern (shaken survey entry) id := by
  obtain ⟨module, isExtern, isLive⟩ := live
  exact definesExtern_shaken.mpr ⟨module, isExtern, Survey.reached_of_live isLive⟩

/-- An identifier named in a shaken bundle is followed from code that remains, as
the one kind it is, or is overlooked. -/
theorem named_cases {module' : BundleModule} (member : module' ∈ shaken survey entry)
    {id : IrFunctionId} (names : NamesFunction module' id) :
    (∃ place func site inst, Remains survey entry place func site inst ∧ id ∈ followedBy inst ∧
        ¬(DefinesFunction survey.modules id ∧ DefinesExtern survey.modules id)) ∨
      Overlooked survey entry id := by
  obtain ⟨index, module, isModule, rfl, -⟩ := mem_shaken.mp member
  cases names with
  | @code func' site' inst inFunctions here named =>
      obtain ⟨own, func, site, remains⟩ :=
        (code_shaken isModule).mp ⟨func', inFunctions, site', here⟩
      by_cases followed : id ∈ followedBy inst
      · by_cases both : DefinesFunction survey.modules id ∧ DefinesExtern survey.modules id
        · exact Or.inr (.ambiguous remains.leftIn named both.1 both.2)
        · exact Or.inl ⟨_, func, site, inst, remains, followed, both⟩
      · exact Or.inr (.inside remains.leftIn named followed)
  | data inGlobals initialized named =>
      obtain ⟨own, found⟩ := (OrdMap.mem_values_iff _ _).mp inGlobals
      obtain ⟨marked, isGlobal⟩ := get?_shakenGlobals.mp found
      have live := Survey.live_of_reached (.mark (.global (index, own))) marked
      exact Or.inr (.initializer live isModule isGlobal initialized named)

theorem keepsReachable_of_overlooksNothing (surveyed : Surveyed survey)
    (nothing : OverlooksNothing survey entry) :
    KeepsReachable survey.modules (shaken survey entry) := by
  refine ⟨?_, ?_, ?_⟩
  · intro module' member id names defined
    rcases named_cases member names with ⟨_, _, _, _, remains, followed, single⟩ | overlooked
    · have notExtern := fun isExtern => single ⟨defined, isExtern⟩
      exact definesFunction_shaken.mpr (remains.function surveyed followed defined notExtern)
    · exact defines_of_functionLive (nothing.functions id overlooked defined)
  · intro module' member id names defined
    rcases named_cases member names with ⟨_, _, _, _, remains, followed, single⟩ | overlooked
    · have notFunction := fun isFunction => single ⟨isFunction, defined⟩
      exact definesExtern_shaken.mpr (remains.external surveyed followed defined notFunction)
    · exact defines_of_externLive (nothing.externs id overlooked defined)
  · intro module' member id names defined
    obtain ⟨func', inFunctions, site', inst, here, named⟩ := names
    obtain ⟨index, module, isModule, rfl, -⟩ := mem_shaken.mp member
    obtain ⟨own, func, site, remains⟩ :=
      (code_shaken isModule).mp ⟨func', inFunctions, site', here⟩
    rcases nothing.globals _ inst id remains.leftIn named defined with
      ⟨module', isModule', contains⟩ | ⟨other, module', isModule', contains, live⟩
    · exact definesGlobal_shaken.mpr
        ⟨index, module', isModule', contains, remains.global surveyed named⟩
    · exact definesGlobal_shaken.mpr
        ⟨other, module', isModule', contains, Survey.reached_of_live live⟩

theorem reached_of_far (shallow : survey.Shallow) {item : Item}
    (live : Live survey entry survey.InheritsFar item) :
    (survey.walkFrom entry).Reached item :=
  Survey.reached_of_live (live.mono shallow)

theorem near_of_reached (shallow : survey.Shallow) (item : Item)
    (reached : (survey.walkFrom entry).Reached item) :
    Live survey entry survey.InheritsNear item :=
  (Survey.live_of_reached item reached).mono shallow

theorem LeftIn.remains (shallow : survey.Shallow) {place : Place} {inst : IrInstruction}
    (left : LeftIn survey entry place inst) :
    ∃ func site, Remains survey entry place func site inst := by
  obtain ⟨live, func, site, found, here, notDead⟩ := left
  refine ⟨func, site, reached_of_far shallow live, found, here, fun dropped => ?_⟩
  obtain ⟨registration, pending, same, member⟩ := mem_droppedSites.mp dropped
  have listed := (Survey.walkFrom_spec survey entry).2.pending registration pending
  have kept := reached_of_far shallow (notDead registration listed same member)
  exact (Survey.pending_iff listed).mp pending kept

theorem Remains.code {place : Place} {func : BundleFunction} {site : Site} {inst : IrInstruction}
    (remains : Remains survey entry place func site inst) :
    ∃ module' ∈ shaken survey entry, ∃ func' ∈ module'.functions.values, ∃ site',
      (site', inst) ∈ sitedInstructions func'.function := by
  obtain ⟨module, isModule, inModule⟩ := isSome_getFunction.mp remains.found
  have found' := get?_shakenFunctions.mpr ⟨remains.reached, func, inModule, rfl⟩
  refine ⟨_, mem_shaken.mpr ⟨place.1, module, isModule, rfl, hasCode_of_function found'⟩, ?_⟩
  exact (code_shaken isModule).mpr ⟨place.2, func, site, remains⟩

theorem Overlooked.named (shallow : survey.Shallow) {id : IrFunctionId}
    (overlooked : Overlooked survey entry id) :
    ∃ module' ∈ shaken survey entry, NamesFunction module' id := by
  have fromCode : ∀ {place inst}, LeftIn survey entry place inst → id ∈ namedBy inst →
      ∃ module' ∈ shaken survey entry, NamesFunction module' id := by
    intro place inst left named
    obtain ⟨func, site, remains⟩ := left.remains shallow
    obtain ⟨module', member, func', inFunctions, site', here⟩ := remains.code
    exact ⟨module', member, .code inFunctions here named⟩
  cases overlooked with
  | inside left named => exact fromCode left named
  | ambiguous left named => exact fromCode left named
  | @initializer place module global value live isModule found initialized named =>
      have marked := reached_of_far shallow live
      have found' := get?_shakenGlobals.mpr ⟨marked, found⟩
      refine ⟨_, mem_shaken.mpr ⟨place.1, module, isModule, rfl,
        hasCode_of_marked isModule marked⟩, ?_⟩
      exact .data ((OrdMap.mem_values_iff _ _).mpr ⟨place.2, found'⟩) initialized named

theorem overlooksNothing_of_keepsReachable (shallow : survey.Shallow)
    (keeps : KeepsReachable survey.modules (shaken survey entry)) :
    (∀ id, Overlooked survey entry id → DefinesFunction survey.modules id →
        FunctionLive survey entry id) ∧
      (∀ id, Overlooked survey entry id → DefinesExtern survey.modules id →
        ExternLive survey entry id) ∧
      ∀ place inst id, LeftIn survey entry place inst → globalNamedBy inst = some id →
        DefinesGlobal survey.modules id → GlobalLive survey entry id := by
  refine ⟨?_, ?_, ?_⟩
  · intro id overlooked defined
    obtain ⟨module', member, names⟩ := overlooked.named shallow
    obtain ⟨module, isFunction, reached⟩ :=
      definesFunction_shaken.mp (keeps.functions module' member id names defined)
    exact ⟨module, isFunction, near_of_reached shallow (.function (module, id)) reached⟩
  · intro id overlooked defined
    obtain ⟨module', member, names⟩ := overlooked.named shallow
    obtain ⟨module, isExtern, marked⟩ :=
      definesExtern_shaken.mp (keeps.externs module' member id names defined)
    exact ⟨module, isExtern,
      near_of_reached shallow (.mark (.external (module, id))) marked⟩
  · intro place inst id left named defined
    obtain ⟨func, site, remains⟩ := left.remains shallow
    obtain ⟨module', member, func', inFunctions, site', here⟩ := remains.code
    obtain ⟨index, module, isModule, contains, marked⟩ := definesGlobal_shaken.mp
      (keeps.globals module' member id ⟨func', inFunctions, site', inst, here, named⟩ defined)
    exact ⟨index, module, isModule, contains,
      near_of_reached shallow (.mark (.global (index, id))) marked⟩

end Keeping

/-! ### Keeping definitions -/

section Definitions

variable {survey : Survey} {entry : Place}

theorem trimmed_iff : List.Forall₂ Trimmed survey.modules
      (stripUnreachable (survey.walkFrom entry) survey.modules) ↔
    ∀ place ∈ (survey.walkFrom entry).functions, ∀ func, survey.getFunction place = some func →
      DefinitionsKept func.function
        (dropSites (droppedSites (survey.walkFrom entry).pending place) func.function) := by
  have lengths : survey.modules.length =
      (stripUnreachable (survey.walkFrom entry) survey.modules).length := by
    rw [stripUnreachable, List.length_map, List.length_zipIdx]
  rw [List.forall₂_iff_get]
  constructor
  · rintro ⟨-, trimmed⟩ place reached func found
    obtain ⟨module, isModule, inModule⟩ := isSome_getFunction.mp found
    obtain ⟨inside, isModule⟩ := List.getElem?_eq_some_iff.mp isModule
    have own := trimmed place.1 inside (lengths ▸ inside)
    simp only [stripUnreachable, List.get_eq_getElem, List.getElem_map, List.getElem_zipIdx,
      Nat.zero_add, isModule] at own
    obtain ⟨func', found', kept⟩ := own place.2 _
      (get?_shakenFunctions.mpr ⟨reached, func, inModule, rfl⟩)
    rw [inModule] at found'
    obtain rfl := Option.some.inj found'
    exact kept
  · intro kept
    refine ⟨lengths, fun index inside _ => ?_⟩
    simp only [stripUnreachable, List.get_eq_getElem, List.getElem_map, List.getElem_zipIdx,
      Nat.zero_add]
    intro id func' found'
    obtain ⟨reached, func, found, rfl⟩ := get?_shakenFunctions.mp found'
    refine ⟨func, found, kept (index, id) reached func ?_⟩
    exact isSome_getFunction.mpr ⟨_, List.getElem?_eq_getElem inside, found⟩

/-- The definition of an operand has its only use in its own registration, so it
goes only together with that use. -/
theorem operand_unused {function : IrFunction} {registration : Registration} {moduleIdx : Nat}
    {module : BundleModule} {id : IrFunctionId}
    (isRegistration : IsRegistration moduleIdx module id function registration)
    {sites : List Site} (dropped : registration.sites ⊆ sites) {site : Site} {reg : IrId}
    {inst : IrInstruction} (member : site ∈ registration.sites)
    (notCall : registration.sites.head? ≠ some site)
    (here : (site, inst) ∈ sitedInstructions function) (writes : inst.writes = some reg)
    {tag : Option Site} (used : (tag, reg) ∈ taggedUses function) :
    ∃ user, tag = some user ∧ user ∈ sites := by
  obtain ⟨callSite, rest, dest, args, typeArgs, isSites, call, owned⟩ := isRegistration.call
  rw [isSites] at member notCall
  have inRest : site ∈ rest := by
    refine (List.mem_cons.mp member).resolve_left fun same => ?_
    exact notCall (by rw [same]; rfl)
  obtain ⟨own, definition, user, userMember, userInst, userHere, uses⟩ := owned site inRest
  obtain ⟨inst', here', defines, -, -⟩ := definition.defined
  obtain rfl := sited_unique here here'
  have same : own = reg := by
    have isDest : inst.dest = some reg := by
      cases inst <;> first | exact writes | cases writes
    rw [defines] at isDest
    exact Option.some.inj isDest
  rw [same] at uses definition
  exact ⟨user, sole_use definition.once used (tagged_of_sited userHere uses), dropped userMember⟩

theorem definitionsKept_of_resultsUnused (surveyed : Surveyed survey)
    (nothing : OverlooksNothing survey entry) :
    List.Forall₂ Trimmed survey.modules
      (stripUnreachable (survey.walkFrom entry) survey.modules) := by
  refine trimmed_iff.mpr fun place reached func found => definitionsKept_iff.mpr ?_
  intro tag reg used notDropped site inst here writes dropped
  obtain ⟨registration, pending, same, member⟩ := mem_droppedSites.mp dropped
  have listed := (Survey.walkFrom_spec survey entry).2.pending registration pending
  obtain ⟨module, func', isModule, isFunction, -, isRegistration⟩ :=
    surveyed.found registration listed
  have found' : survey.getFunction place = some func' := by
    rw [← same]
    exact isSome_getFunction.mpr ⟨module, isModule, isFunction⟩
  rw [found] at found'
  obtain rfl := Option.some.inj found'
  by_cases isCall : registration.sites.head? = some site
  · have notLive : ¬Live survey entry survey.InheritsNear (.registration registration) := by
      intro live
      exact (Survey.pending_iff listed).mp pending (Survey.reached_of_live live)
    rw [← same] at found
    obtain ⟨user, isUser, other, otherListed, otherPlace, userMember, otherDead⟩ :=
      nothing.results registration listed notLive func site inst reg found isCall here writes tag used
    have otherPending : other ∈ (survey.walkFrom entry).pending := by
      refine (Survey.pending_iff otherListed).mpr fun kept => otherDead ?_
      exact Survey.live_of_reached (.registration other) kept
    exact notDropped user isUser
      (mem_droppedSites.mpr ⟨other, otherPending, otherPlace.trans same, userMember⟩)
  · obtain ⟨user, isUser, userDropped⟩ := operand_unused isRegistration
      (fun site member => mem_droppedSites.mpr ⟨registration, pending, same, member⟩)
      member isCall here writes used
    exact notDropped user isUser userDropped

theorem resultsUnused_of_definitionsKept (surveyed : Surveyed survey) (shallow : survey.Shallow)
    (trimmed : List.Forall₂ Trimmed survey.modules
      (stripUnreachable (survey.walkFrom entry) survey.modules)) :
    ∀ registration ∈ survey.registrations,
      ¬Live survey entry survey.InheritsNear (.registration registration) →
      ∀ func site inst reg,
        survey.getFunction (registration.module, registration.function) = some func →
        registration.sites.head? = some site → (site, inst) ∈ sitedInstructions func.function →
        inst.writes = some reg → ∀ tag, (tag, reg) ∈ taggedUses func.function →
        ∃ user, tag = some user ∧ ∃ other ∈ survey.registrations,
          (other.module, other.function) = (registration.module, registration.function) ∧
            user ∈ other.sites ∧ ¬Live survey entry survey.InheritsFar (.registration other) := by
  intro registration listed notLive func site inst reg found isCall here writes tag used
  obtain ⟨module, func', isModule, isFunction, startup, isRegistration⟩ :=
    surveyed.found registration listed
  have found' : survey.getFunction (registration.module, registration.function) = some func' :=
    isSome_getFunction.mpr ⟨module, isModule, isFunction⟩
  rw [found] at found'
  obtain rfl := Option.some.inj found'
  have reached : (registration.module, registration.function) ∈
      (survey.walkFrom entry).functions := by
    refine Survey.reached_of_live (Live.seed (List.mem_cons_of_mem _ ?_))
    refine List.mem_map.mpr ⟨(_, func), List.mem_filter.mpr ⟨?_, by simp [startup]⟩, rfl⟩
    exact Survey.mem_functionEntries.mpr found
  have pending : registration ∈ (survey.walkFrom entry).pending := by
    refine (Survey.pending_iff listed).mpr fun kept => notLive ?_
    exact near_of_reached shallow (.registration registration) kept
  have dropped : site ∈ droppedSites (survey.walkFrom entry).pending
      (registration.module, registration.function) :=
    mem_droppedSites.mpr ⟨registration, pending, rfl, List.mem_of_mem_head? isCall⟩
  by_contra unused
  refine definitionsKept_iff.mp (trimmed_iff.mp trimmed _ reached func found) tag reg used ?_
    site inst here writes dropped
  intro user isUser userDropped
  obtain ⟨other, otherPending, otherPlace, member⟩ := mem_droppedSites.mp userDropped
  have otherListed := (Survey.walkFrom_spec survey entry).2.pending other otherPending
  refine unused ⟨user, isUser, other, otherListed, otherPlace, member, fun live => ?_⟩
  exact (Survey.pending_iff otherListed).mp otherPending (reached_of_far shallow live)

end Definitions

/-! ### The two directions -/

def NothingOverlooked (isMirWrapperFunction : String → Bool) (modules : List BundleModule)
    (entryModule entryFunction : String) : Prop :=
  ∀ entry, findEntry modules entryModule entryFunction = some entry →
    RegistrationsHaveArguments modules ∧
      ∀ registrations, findAllRegistrations modules = some registrations →
        OverlooksNothing ⟨isMirWrapperFunction, modules, registrations⟩ entry

/-- No class has more ancestors than one round of the walk climbs. -/
def ShallowClasses (isMirWrapperFunction : String → Bool) (modules : List BundleModule) : Prop :=
  ∀ registrations, (Survey.mk isMirWrapperFunction modules registrations).Shallow

/-- A bundle in which the walk overlooks nothing is shaken safely; and where
classes have no more ancestors than one round climbs, only such a bundle is. -/
theorem shakesSafely_iff (isMirWrapperFunction : String → Bool) (modules : List BundleModule)
    (entryModule entryFunction : String) :
    (NothingOverlooked isMirWrapperFunction modules entryModule entryFunction →
        ShakesSafely isMirWrapperFunction modules entryModule entryFunction) ∧
      (ShallowClasses isMirWrapperFunction modules →
        ShakesSafely isMirWrapperFunction modules entryModule entryFunction →
        NothingOverlooked isMirWrapperFunction modules entryModule entryFunction) := by
  cases isEntry : findEntry modules entryModule entryFunction with
  | none =>
      have unchanged : treeShakeBundle isMirWrapperFunction modules entryModule entryFunction =
          some (modules, {}) := by
        rw [treeShakeBundle, isEntry]
      refine ⟨fun _ => ⟨⟨modules, {}, unchanged, ?_⟩, ?_⟩, fun _ _ entry found => ?_⟩
      · exact ⟨fun _ _ _ _ defined => defined, fun _ _ _ _ defined => defined,
          fun _ _ _ _ defined => defined⟩
      · intro entry registrations found
        rw [isEntry] at found
        cases found
      · rw [isEntry] at found
        cases found
  | some entry =>
      cases searched : findAllRegistrations modules with
      | none =>
          have stopped : ¬RegistrationsHaveArguments modules := by
            rw [← findAllRegistrations_isSome, searched]
            exact Bool.false_ne_true
          have noResult : treeShakeBundle isMirWrapperFunction modules entryModule entryFunction =
              none := by
            simp only [treeShakeBundle, isEntry, searched, Option.map_none]
          refine ⟨fun nothing => absurd (nothing entry isEntry).1 stopped, fun _ shakes => ?_⟩
          obtain ⟨⟨after, stats, result, -⟩, -⟩ := shakes
          rw [noResult] at result
          cases result
      | some registrations =>
          have surveyed : Surveyed ⟨isMirWrapperFunction, modules, registrations⟩ :=
            surveyed_of_found searched
          have haveArguments : RegistrationsHaveArguments modules := by
            rw [← findAllRegistrations_isSome, searched]
            rfl
          have result : ∃ stats,
              treeShakeBundle isMirWrapperFunction modules entryModule entryFunction =
                some (shaken ⟨isMirWrapperFunction, modules, registrations⟩ entry, stats) :=
            ⟨_, by simp only [treeShakeBundle, isEntry, searched, Option.map_some]; rfl⟩
          obtain ⟨stats, result⟩ := result
          constructor
          · intro nothing
            have overlooks := (nothing entry isEntry).2 registrations searched
            refine ⟨⟨_, stats, result, keepsReachable_of_overlooksNothing surveyed overlooks⟩, ?_⟩
            intro entry' registrations' found found'
            rw [isEntry] at found
            rw [searched] at found'
            obtain rfl := Option.some.inj found
            obtain rfl := Option.some.inj found'
            exact definitionsKept_of_resultsUnused surveyed overlooks
          · intro shallow shakes entry' found
            obtain ⟨⟨after, stats', result', keeps⟩, deletes⟩ := shakes
            rw [isEntry] at found
            obtain rfl := Option.some.inj found
            refine ⟨haveArguments, fun registrations' found' => ?_⟩
            rw [searched] at found'
            obtain rfl := Option.some.inj found'
            rw [result] at result'
            obtain rfl := (Prod.mk.inj (Option.some.inj result')).1
            have trimmed := deletes entry registrations isEntry searched
            obtain ⟨functions, externs, globals⟩ :=
              overlooksNothing_of_keepsReachable (shallow registrations) keeps
            exact ⟨functions, externs, fun place inst id left named defined =>
                Or.inr (globals place inst id left named defined),
              resultsUnused_of_definitionsKept surveyed (shallow registrations) trimmed⟩

/-! ### Bundles in which everything is followed -/

/-- A module with constants that name no function inside, uses of its own globals
only, and no function in an initializer. -/
def Plain (module : BundleModule) : Prop :=
  (∀ func ∈ module.functions.values, ∀ sited ∈ sitedInstructions func.function,
      (∀ id ∈ namedBy sited.2, id ∈ followedBy sited.2) ∧
        ∀ id ∈ (globalNamedBy sited.2).toList, module.globals.contains id) ∧
    ∀ global ∈ module.globals.values, ∀ value ∈ global.initializer.toList,
      functionsNamed value = []

instance (module : BundleModule) : Decidable (Plain module) :=
  inferInstanceAs (Decidable (_ ∧ _))

theorem overlooksNothing_of_plain {survey : Survey} (entry : Place)
    (noRegistrations : survey.registrations = [])
    (plain : ∀ module ∈ survey.modules, Plain module)
    (single : ∀ module ∈ survey.modules, ∀ id ∈ module.functions.keys,
      ∀ other ∈ survey.modules, other.externFunctions.contains id = false) :
    OverlooksNothing survey entry := by
  have code : ∀ {place inst}, LeftIn survey entry place inst →
      ∃ module, survey.modules[place.1]? = some module ∧
        (∀ id ∈ namedBy inst, id ∈ followedBy inst) ∧
          ∀ id ∈ (globalNamedBy inst).toList, module.globals.contains id := by
    intro place inst left
    obtain ⟨-, func, site, found, here, -⟩ := left
    obtain ⟨module, isModule, inModule⟩ := isSome_getFunction.mp found
    have member := (OrdMap.mem_values_iff _ _).mpr ⟨place.2, inModule⟩
    have own := (plain module (List.mem_of_getElem? isModule)).1 func member (site, inst) here
    exact ⟨module, isModule, own⟩
  have none : ∀ id, ¬Overlooked survey entry id := by
    intro id overlooked
    cases overlooked with
    | inside left named notFollowed =>
        obtain ⟨_, _, followed, _⟩ := code left
        exact notFollowed (followed id named)
    | ambiguous left named isFunction isExtern =>
        obtain ⟨module, member, contains⟩ := isFunction
        obtain ⟨other, otherMember, otherContains⟩ := isExtern
        have isKey := (OrdMap.mem_keys_iff module.functions id).mpr
          ((OrdMap.contains_iff _ _).mp contains)
        rw [single module member id isKey other otherMember] at otherContains
        cases otherContains
    | @initializer place module global value live isModule found initialized named =>
        have member := (OrdMap.mem_values_iff _ _).mpr ⟨place.2, found⟩
        have nothing := (plain module (List.mem_of_getElem? isModule)).2 global member value
          (Option.mem_toList.mpr initialized)
        rw [nothing] at named
        exact absurd named List.not_mem_nil
  refine ⟨fun id overlooked => absurd overlooked (none id),
    fun id overlooked => absurd overlooked (none id), ?_, ?_⟩
  · intro place inst id left named _
    obtain ⟨module, isModule, -, contains⟩ := code left
    exact Or.inl ⟨module, isModule, contains id (Option.mem_toList.mpr named)⟩
  · intro registration listed
    rw [noRegistrations] at listed
    exact absurd listed List.not_mem_nil

def straightLine (name : String) (instructions : List IrInstruction) : BundleFunction where
  function :=
    { name
      signature :=
        { parameters := [], returnType := .i64, callingConvention := .haxe, typeParams := [],
          usesSret := false }
      cfg :=
        { blocks := OrdMap.ofList [(0, { instructions, terminator := .ret none })]
          entryBlock := 0, nextBlockId := 1 }
      locals := .empty, registerTypes := .empty, externalLinkage := false, nextRegId := 8
      typeParamTagFixups := [], typeParamMetadataFixups := [] }
  qualifiedName := none
  custom := .empty
  wasmExport := false

def moduleWith (name : String) (functions : List (IrFunctionId × BundleFunction))
    (globals : List IrGlobalId) : BundleModule where
  name
  sourceFile := ""
  functions := OrdMap.ofList functions
  globals := OrdMap.ofList (globals.map fun id => (id, ⟨"value", none⟩))
  types := .empty
  stringPool := ⟨.empty, .empty, 0⟩
  externFunctions := .empty

/-- `Main.run` calls a function of another module, which uses a global of its own. -/
def callsLibrary : List BundleModule :=
  [moduleWith "Main" [(0, straightLine "run" [.callDirect none 5 [] []])] [],
    moduleWith "Library" [(5, straightLine "helper" [.loadGlobal 0 7 .i64])] [7]]

theorem callsLibrary_shaken :
    ShakesSafely (fun _ => false) callsLibrary "Main" "run" := by
  refine (shakesSafely_iff (fun _ => false) callsLibrary "Main" "run").1 ?_
  intro entry found
  have noRegistrations : findAllRegistrations callsLibrary = some [] := rfl
  refine ⟨?_, fun registrations searched => ?_⟩
  · rw [← findAllRegistrations_isSome, noRegistrations]
    rfl
  · rw [noRegistrations] at searched
    obtain rfl := Option.some.inj searched
    exact overlooksNothing_of_plain entry rfl (by decide) (by decide)

def readsLibrary : List BundleModule :=
  [moduleWith "Main" [(0, straightLine "run" [.loadGlobal 0 7 .i64])] [],
    moduleWith "Library" [(5, straightLine "helper" [])] [7]]

/-- The global is looked for in the module that reads it, and goes with its own. -/
theorem readsLibrary_dangles :
    ¬ShakesSafely (fun _ => false) readsLibrary "Main" "run" := by
  rintro ⟨⟨after, stats, result, keeps⟩, -⟩
  let survey : Survey := ⟨fun _ => false, readsLibrary, []⟩
  have isShaken : after = shaken survey (0, 0) := by
    have same : treeShakeBundle (fun _ => false) readsLibrary "Main" "run" =
        some (shaken survey (0, 0), _) := rfl
    rw [same] at result
    exact (Prod.mk.inj (Option.some.inj result)).1.symm
  subst isShaken
  have remains : Remains survey (0, 0) (0, 0) (straightLine "run" [.loadGlobal 0 7 .i64]) (0, 0)
      (.loadGlobal 0 7 .i64) := ⟨by decide, rfl, List.mem_cons_self, by decide⟩
  obtain ⟨module', member, func', inFunctions, site', here⟩ := remains.code
  have defined : DefinesGlobal (shaken survey (0, 0)) 7 :=
    keeps.globals module' member 7 ⟨func', inFunctions, site', _, here, rfl⟩ ⟨_, by
      exact List.mem_cons_of_mem _ (List.mem_singleton_self _), by decide⟩
  obtain ⟨index, module, isModule, contains, marked⟩ := definesGlobal_shaken.mp defined
  have marks : (survey.walkFrom (0, 0)).marks = [.global (0, 7)] := by decide
  rw [marks, List.mem_singleton] at marked
  obtain rfl : index = 0 := (Prod.mk.inj (Mark.global.inj marked)).1
  obtain rfl := Option.some.inj isModule
  revert contains
  decide

end Rayzor.Bundle
