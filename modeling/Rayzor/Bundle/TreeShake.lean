import Rayzor.Library.Worklist
import Rayzor.Bundle.Registrations

/-!
Contract: `tree_shake_bundle`, from the seeds to the modules that are left.

Owns: what the walk knows before it starts, the walk over the code with its
rounds, and the removal of what it did not reach.

Does not own: which functions have a standard library wrapper, a parameter here.
The three sets of reached externs, globals and class identifiers are one list of
marks.
-/

namespace Rayzor.Bundle

open Ir
open Library (OrdMap exploreWith)

/-- What can be reached beside functions. -/
inductive Mark where
  | external (place : Place)
  | global (place : Nat × IrGlobalId)
  | classId (id : Nat)
  deriving DecidableEq

/-- What is known before the walk starts. -/
structure Survey where
  isMirWrapperFunction : String → Bool
  modules : List BundleModule
  registrations : List Registration

namespace Survey

variable (survey : Survey)

def getFunction (place : Place) : Option BundleFunction :=
  survey.modules[place.1]?.bind fun module => module.functions.get? place.2

def getExtern (place : Place) : Option IrExternFunction :=
  survey.modules[place.1]?.bind fun module => module.externFunctions.get? place.2

def functionEntries : List (Place × BundleFunction) :=
  survey.modules.zipIdx.flatMap fun indexed =>
    indexed.1.functions.entries.map fun entry => ((indexed.2, entry.1), entry.2)

def externPlaces : List Place :=
  survey.modules.zipIdx.flatMap fun indexed =>
    indexed.1.externFunctions.keys.map fun id => (indexed.2, id)

/-- The first module that has the identifier, and whether it only declares it. -/
def ownerOf (id : IrFunctionId) : Option (Nat × Bool) :=
  survey.modules.zipIdx.findSome? fun indexed =>
    if indexed.1.functions.contains id then some (indexed.2, false)
    else if indexed.1.externFunctions.contains id then some (indexed.2, true)
    else none

/-- The entry, then the functions kept by attribute or run at startup. -/
def seeds (entry : Place) : List Place :=
  entry :: (survey.functionEntries.filter fun item =>
    isKeepFunction item.2 || isStartupFunction item.2).map Prod.fst

def isDeferred (place : Place) (site : Site) : Bool :=
  survey.registrations.any fun registration =>
    (registration.module, registration.function) == place && registration.sites.contains site

/-- The bodies a stub or a declaration can be linked to. -/
def bodies : List (Place × BundleFunction) :=
  survey.functionEntries.filter fun item => !item.2.hasNoBlocks && !item.2.isForwardStub

def byQualified (name : String) : List Place :=
  (survey.bodies.filter fun item => item.2.qualifiedName == some name).map Prod.fst

def byBare (name : String) : List Place :=
  (survey.bodies.filter fun item =>
    survey.isMirWrapperFunction item.2.name && item.2.name == name).map Prod.fst

/-- The run-time identifiers of a module's types; a later one replaces an
earlier one. -/
def rtti (module : BundleModule) : OrdMap Nat Nat :=
  module.types.values.foldl (fun table typedef =>
    match typedef.runtimeTypeId with
    | some id => table.insert typedef.typeId id
    | none => table) .empty

def parents : List (Nat × Nat) :=
  survey.modules.flatMap fun module => module.types.values.filterMap fun typedef =>
    typedef.superTypeId.map fun parent =>
      (typedef.runtimeTypeId.getD typedef.typeId, ((rtti module).get? parent).getD parent)

def parentOf (id : Nat) : Option Nat := (survey.parents.find? fun entry => entry.1 == id).map Prod.snd

/-- The ancestors of a class, nearest first. -/
def ancestorsWithin : Nat → Nat → List Nat
  | 0, _ => []
  | count + 1, id =>
      match survey.parentOf id with
      | none => []
      | some parent => parent :: ancestorsWithin count parent

def scanned (place : Place) (func : BundleFunction) : List IrInstruction :=
  ((sitedInstructions func.function).filter fun sited =>
    !survey.isDeferred place sited.1).map Prod.snd

/-- Where a function without a body of its own gets one. -/
def linkedBodies (func : BundleFunction) : List Place :=
  if func.hasNoBlocks || func.isForwardStub then
    (func.qualifiedName.map survey.byQualified).getD [] ++
      if func.hasNoBlocks then survey.byBare func.name else []
  else []

/-- The function an identifier leads to. -/
def targetFunction (id : IrFunctionId) : Option Place :=
  match survey.ownerOf id with
  | some (owner, false) => some (owner, id)
  | _ => none

/-- The extern an identifier leads to. -/
def targetExtern (id : IrFunctionId) : Option Place :=
  match survey.ownerOf id with
  | some (owner, true) => some (owner, id)
  | _ => none

/-- What goes on the worklist when a function is taken off it. -/
def pushes (place : Place) : List Place :=
  match survey.getFunction place with
  | none => []
  | some func => survey.linkedBodies func ++
      ((survey.scanned place func).flatMap followedBy).filterMap survey.targetFunction

def marksOfInstruction (module : Nat) (inst : IrInstruction) : List Mark :=
  ((match inst with
      | .const _ value => integerBits value
      | _ => none).toList.map .classId) ++
    ((followedBy inst).filterMap survey.targetExtern).map .external ++
    (globalNamedBy inst).toList.map fun id => .global (module, id)

def marksOf (place : Place) : List Mark :=
  match survey.getFunction place with
  | none => if (survey.getExtern place).isSome then [.external place] else []
  | some func => (survey.scanned place func).flatMap (survey.marksOfInstruction place.1)

structure Walk where
  worklist : List Place
  functions : List Place
  marks : List Mark
  linkedExterns : List Place
  pending : List Registration
  kept : List Registration

def externsIn (marks : List Mark) : List Place :=
  marks.filterMap fun
    | .external place => some place
    | _ => none

def classIdsIn (marks : List Mark) : List Nat :=
  marks.filterMap fun
    | .classId id => some id
    | _ => none

/-- A step for each place on the worklist and each one a function can push. -/
def drainFuel (walk : Walk) : Nat :=
  walk.worklist.length +
    (survey.functionEntries.map fun item => (survey.pushes item.1).length).sum + 1

def drain (walk : Walk) : Walk :=
  let reached := exploreWith survey.pushes (fun marks place => survey.marksOf place ++ marks)
    (survey.drainFuel walk) walk.worklist.reverse (walk.functions, walk.marks)
  { walk with
    worklist := []
    functions := reached.1
    marks := reached.2 }

def bareBodiesOf (place : Place) : List Place :=
  match survey.getExtern place with
  | some external => survey.byBare external.name
  | none => []

/-- Externs reached for the first time bring in the bodies of their name. -/
def link (walk : Walk) : Walk :=
  let fresh := (externsIn walk.marks).filter (· ∉ walk.linkedExterns)
  { walk with
    worklist := walk.worklist ++ fresh.flatMap survey.bareBodiesOf
    linkedExterns := fresh ++ walk.linkedExterns }

def inherit (walk : Walk) : Walk :=
  { walk with
    marks := ((classIdsIn walk.marks).flatMap (survey.ancestorsWithin 64)).map .classId ++
      walk.marks }

def isByName (name : String) : Bool := CLASS_BY_NAME.contains name

/-- Some reached call can produce any class. -/
def everyClass (walk : Walk) : Bool :=
  ((externsIn walk.marks).any fun place =>
      (survey.getExtern place).any fun external => isByName external.name) ||
    walk.functions.any fun place =>
      (survey.getFunction place).any fun func => func.hasNoBlocks && isByName func.name

def isLive (walk : Walk) (registration : Registration) : Bool :=
  match registration.key with
  | .cls id => survey.everyClass walk || (classIdsIn walk.marks).contains id
  | .target target =>
      match survey.ownerOf target with
      | none => true
      | some (owner, _) => walk.functions.contains (owner, target)

/-- Keep the registrations that are live, with what they name. -/
def register (walk : Walk) : Walk :=
  let live := walk.pending.filter (survey.isLive walk)
  { walk with
    worklist := walk.worklist ++ (live.flatMap (·.refs)).filterMap survey.targetFunction
    marks := (live.map fun registration =>
        Mark.external (registration.module, registration.externId)) ++
      (((live.flatMap (·.refs)).filterMap survey.targetExtern).map .external) ++ walk.marks
    pending := walk.pending.filter fun registration => !survey.isLive walk registration
    kept := live ++ walk.kept }

/-- One round, and whether there is more to do. -/
def round (walk : Walk) : Walk × Bool :=
  let linked := survey.inherit (survey.link (survey.drain walk))
  (survey.register linked,
    !linked.worklist.isEmpty || linked.pending.any (survey.isLive linked))

def rounds : Nat → Walk → Walk
  | 0, walk => walk
  | count + 1, walk =>
      let next := survey.round walk
      if next.2 then rounds count next.1 else next.1

/-- A round links an extern or keeps a registration, or is the last. -/
def roundFuel : Nat := survey.externPlaces.length + survey.registrations.length + 1

def start (entry : Place) : Walk where
  worklist := survey.seeds entry
  functions := []
  marks := []
  linkedExterns := []
  pending := survey.registrations
  kept := []

def walkFrom (entry : Place) : Walk := survey.rounds survey.roundFuel (survey.start entry)

end Survey

def findAllRegistrations (modules : List BundleModule) : Option (List Registration) :=
  let hooks := modules.zipIdx.flatMap fun indexed =>
    (indexed.1.functions.entries.filter fun entry => isStartupFunction entry.2).map
      fun entry => (indexed, entry)
  (hooks.mapM fun hook =>
    findRegistrations hook.1.2 hook.1.1 hook.2.1 hook.2.2.function).map List.flatten

def dropSites (sites : List Site) (function : IrFunction) : IrFunction :=
  { function with cfg := { function.cfg with
      blocks := function.cfg.blocks.mapValues fun id block => { block with
        instructions := (block.instructions.zipIdx.filter fun indexed =>
          !sites.contains (id, indexed.2)).map Prod.fst } } }

def droppedSites (pending : List Registration) (place : Place) : List Site :=
  (pending.filter fun registration =>
    (registration.module, registration.function) == place).flatMap (·.sites)

mutual

def stringsIn : IrValue → List String
  | .string text => [text]
  | .array values => stringsInAll values
  | .struct values => stringsInAll values
  | .closure _ environment => stringsIn environment
  | _ => []

def stringsInAll : List IrValue → List String
  | [] => []
  | value :: rest => stringsIn value ++ stringsInAll rest

end

def pruneStringPool (module : BundleModule) : BundleModule :=
  let initializers := module.globals.values.filterMap (·.initializer)
  let constants := module.functions.values.flatMap fun func =>
    (sitedInstructions func.function).filterMap fun sited =>
      match sited.2 with
      | .const _ value => some value
      | _ => none
  let live := (initializers ++ constants).flatMap stringsIn
  let globalPoolIds := initializers.filterMap integerBits
  { module with
    stringPool := module.stringPool.retain fun id text =>
      globalPoolIds.contains id || live.contains text }

def shakeModule (walk : Survey.Walk) (moduleIdx : Nat) (module : BundleModule) : BundleModule :=
  let trimmed := module.functions.mapValues fun id func =>
    { func with function := dropSites (droppedSites walk.pending (moduleIdx, id)) func.function }
  pruneStringPool { module with
    functions := trimmed.filter fun id _ => walk.functions.contains (moduleIdx, id)
    externFunctions := module.externFunctions.filter fun id _ =>
      walk.marks.contains (.external (moduleIdx, id))
    globals := module.globals.filter fun id _ =>
      walk.marks.contains (.global (moduleIdx, id)) }

/-- The modules without what the walk did not reach, one for one. -/
def stripUnreachable (walk : Survey.Walk) (modules : List BundleModule) : List BundleModule :=
  modules.zipIdx.map fun indexed => shakeModule walk indexed.2 indexed.1

def BundleModule.hasCode (module : BundleModule) : Bool :=
  !module.functions.entries.isEmpty || !module.externFunctions.entries.isEmpty

structure TreeShakeStats where
  functionsRemoved : Nat := 0
  externFunctionsRemoved : Nat := 0
  globalsRemoved : Nat := 0
  modulesRemoved : Nat := 0
  functionsKept : Nat := 0
  externFunctionsKept : Nat := 0
  registrationsRemoved : Nat := 0

def statsOf (modules shaken : List BundleModule) (pending : List Registration) :
    TreeShakeStats :=
  let functions := fun modules : List BundleModule =>
    (modules.map (·.functions.entries.length)).sum
  let externs := fun modules : List BundleModule =>
    (modules.map (·.externFunctions.entries.length)).sum
  let globals := fun modules : List BundleModule =>
    (modules.map (·.globals.entries.length)).sum
  let dropped := pending.flatMap fun registration =>
    registration.sites.map fun site => (registration.module, registration.function, site)
  { functionsRemoved := functions modules - functions shaken
    externFunctionsRemoved := externs modules - externs shaken
    globalsRemoved := globals modules - globals shaken
    modulesRemoved := (shaken.filter fun module => !module.hasCode).length
    functionsKept := functions shaken
    externFunctionsKept := externs shaken
    registrationsRemoved := dropped.dedup.length }

/-- Keep what the entry can reach. Without an entry nothing is removed; nothing is
returned when the search for registrations stops. -/
def treeShakeBundle (isMirWrapperFunction : String → Bool) (modules : List BundleModule)
    (entryModule entryFunction : String) : Option (List BundleModule × TreeShakeStats) :=
  match findEntry modules entryModule entryFunction with
  | none => some (modules, {})
  | some entry =>
      (findAllRegistrations modules).map fun registrations =>
        let walk := (Survey.mk isMirWrapperFunction modules registrations).walkFrom entry
        let shaken := stripUnreachable walk modules
        (shaken.filter BundleModule.hasCode, statsOf modules shaken walk.pending)

end Rayzor.Bundle
