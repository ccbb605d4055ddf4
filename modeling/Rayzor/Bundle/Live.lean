import Rayzor.Bundle.TreeShake

/-!
Contract: what a bundle needs, as the least set closed under the references the
walk follows, and that the walk finds this set.

Owns: the set, its independence of the order of the walk, and that the rounds of
the walk end.

Does not own: references the walk does not follow. A class keeps its ancestors
alive; how far up is a parameter, because one round of the walk climbs at most 64
generations.
-/

namespace Rayzor.Bundle

open Ir
open Library (explore exploreWith)

inductive Item where
  | function (place : Place)
  | mark (mark : Mark)
  | registration (registration : Registration)

/-- The things reached from the seeds, when a live class keeps alive the ones it
inherits from. -/
inductive Live (survey : Survey) (entry : Place) (Inherits : Nat → Nat → Prop) : Item → Prop
  | seed {place : Place} : place ∈ survey.seeds entry →
      Live survey entry Inherits (.function place)
  | pushed {place next : Place} : Live survey entry Inherits (.function place) →
      next ∈ survey.pushes place → Live survey entry Inherits (.function next)
  | marked {place : Place} {mark : Mark} : Live survey entry Inherits (.function place) →
      mark ∈ survey.marksOf place → Live survey entry Inherits (.mark mark)
  | inherited {place : Place} {id ancestor : Nat} :
      Live survey entry Inherits (.function place) → .classId id ∈ survey.marksOf place →
      Inherits id ancestor → Live survey entry Inherits (.mark (.classId ancestor))
  | linked {place body : Place} : Live survey entry Inherits (.mark (.external place)) →
      body ∈ survey.bareBodiesOf place → Live survey entry Inherits (.function body)
  | ofClass {registration : Registration} {id : Nat} :
      registration ∈ survey.registrations → registration.key = .cls id →
      Live survey entry Inherits (.mark (.classId id)) →
      Live survey entry Inherits (.registration registration)
  | ofExternByName {registration : Registration} {id : Nat} {place : Place}
      {callee : IrExternFunction} :
      registration ∈ survey.registrations → registration.key = .cls id →
      Live survey entry Inherits (.mark (.external place)) →
      survey.getExtern place = some callee → Survey.isByName callee.name →
      Live survey entry Inherits (.registration registration)
  | ofFunctionByName {registration : Registration} {id : Nat} {place : Place}
      {func : BundleFunction} :
      registration ∈ survey.registrations → registration.key = .cls id →
      Live survey entry Inherits (.function place) → survey.getFunction place = some func →
      func.hasNoBlocks → Survey.isByName func.name →
      Live survey entry Inherits (.registration registration)
  | ofTarget {registration : Registration} {target : IrFunctionId} {owner : Nat}
      {onlyDeclared : Bool} :
      registration ∈ survey.registrations → registration.key = .target target →
      survey.ownerOf target = some (owner, onlyDeclared) →
      Live survey entry Inherits (.function (owner, target)) →
      Live survey entry Inherits (.registration registration)
  | ofUnowned {registration : Registration} {target : IrFunctionId} :
      registration ∈ survey.registrations → registration.key = .target target →
      survey.ownerOf target = none → Live survey entry Inherits (.registration registration)
  | callee {registration : Registration} :
      Live survey entry Inherits (.registration registration) →
      Live survey entry Inherits (.mark (.external (registration.module, registration.externId)))
  | refFunction {registration : Registration} {id : IrFunctionId} {place : Place} :
      Live survey entry Inherits (.registration registration) → id ∈ registration.refs →
      survey.targetFunction id = some place → Live survey entry Inherits (.function place)
  | refExtern {registration : Registration} {id : IrFunctionId} {place : Place} :
      Live survey entry Inherits (.registration registration) → id ∈ registration.refs →
      survey.targetExtern id = some place → Live survey entry Inherits (.mark (.external place))

namespace Survey

/-- The ancestors one round of the walk adds. -/
def InheritsNear (survey : Survey) (id ancestor : Nat) : Prop :=
  ancestor ∈ survey.ancestorsWithin 64 id

/-- All ancestors. -/
def InheritsFar (survey : Survey) : Nat → Nat → Prop :=
  Relation.TransGen fun id parent => survey.parentOf id = some parent

/-- No class has an ancestor that its first 64 do not include. -/
def Shallow (survey : Survey) : Prop :=
  ∀ id ancestor, survey.InheritsFar id ancestor → survey.InheritsNear id ancestor

def Walk.Reached (walk : Walk) : Item → Prop
  | .function place => place ∈ walk.functions
  | .mark mark => mark ∈ walk.marks
  | .registration registration => registration ∈ walk.kept

theorem far_of_ancestorsWithin {survey : Survey} {count id ancestor : Nat}
    (member : ancestor ∈ survey.ancestorsWithin count id) : survey.InheritsFar id ancestor := by
  induction count generalizing id with
  | zero => exact absurd member List.not_mem_nil
  | succ count ih =>
      unfold ancestorsWithin at member
      split at member
      · exact absurd member List.not_mem_nil
      · rename_i parent isParent
        rcases List.mem_cons.mp member with rfl | above
        · exact .single isParent
        · exact .head isParent (ih above)

end Survey

theorem Live.mono {survey : Survey} {entry : Place} {Inherits Inherits' : Nat → Nat → Prop}
    (more : ∀ id ancestor, Inherits id ancestor → Inherits' id ancestor) {item : Item}
    (live : Live survey entry Inherits item) : Live survey entry Inherits' item := by
  induction live with
  | seed member => exact .seed member
  | pushed _ member live => exact .pushed live member
  | marked _ member live => exact .marked live member
  | inherited _ held above live => exact .inherited live held (more _ _ above)
  | linked _ member live => exact .linked live member
  | ofClass listed isKey _ live => exact .ofClass listed isKey live
  | ofExternByName listed isKey _ found byName live =>
      exact .ofExternByName listed isKey live found byName
  | ofFunctionByName listed isKey _ found noBlocks byName live =>
      exact .ofFunctionByName listed isKey live found noBlocks byName
  | ofTarget listed isKey owned _ live => exact .ofTarget listed isKey owned live
  | ofUnowned listed isKey unowned => exact .ofUnowned listed isKey unowned
  | callee _ live => exact .callee live
  | refFunction _ member leads live => exact .refFunction live member leads
  | refExtern _ member leads live => exact .refExtern live member leads

theorem Live.ancestor {survey : Survey} {entry : Place} {id ancestor : Nat}
    (live : Live survey entry survey.InheritsFar (.mark (.classId id)))
    (above : survey.InheritsFar id ancestor) :
    Live survey entry survey.InheritsFar (.mark (.classId ancestor)) := by
  cases live with
  | marked holder held => exact .inherited holder held above
  | inherited holder held below => exact .inherited holder held (below.trans above)

namespace Survey

section Places

variable {survey : Survey}

theorem mem_functionEntries {place : Place} {func : BundleFunction} :
    (place, func) ∈ survey.functionEntries ↔ survey.getFunction place = some func := by
  simp only [functionEntries, getFunction, List.mem_flatMap, List.mem_map,
    Option.bind_eq_some_iff]
  constructor
  · rintro ⟨indexed, inModules, entry, inFunctions, same⟩
    simp only [Prod.mk.injEq] at same
    obtain ⟨rfl, rfl⟩ := same
    exact ⟨indexed.1, List.mem_zipIdx_iff_getElem?.mp inModules,
      (Library.OrdMap.mem_entries_iff _ _ _).mp inFunctions⟩
  · rintro ⟨module, isModule, found⟩
    exact ⟨(module, place.1), List.mem_zipIdx_iff_getElem?.mpr isModule, (place.2, func),
      (Library.OrdMap.mem_entries_iff _ _ _).mpr found, rfl⟩

theorem mem_externPlaces {place : Place} :
    place ∈ survey.externPlaces ↔ (survey.getExtern place).isSome := by
  simp only [externPlaces, getExtern, List.mem_flatMap, List.mem_map, Option.isSome_iff_exists,
    Option.bind_eq_some_iff, Library.OrdMap.mem_keys_iff]
  constructor
  · rintro ⟨indexed, inModules, id, ⟨callee, found⟩, rfl⟩
    exact ⟨callee, indexed.1, List.mem_zipIdx_iff_getElem?.mp inModules, found⟩
  · rintro ⟨callee, module, isModule, found⟩
    exact ⟨(module, place.1), List.mem_zipIdx_iff_getElem?.mpr isModule, place.2,
      ⟨callee, found⟩, rfl⟩

theorem functionPlaces_nodup : (survey.functionEntries.map Prod.fst).Nodup := by
  rw [functionEntries, List.map_flatMap, List.nodup_flatMap]
  constructor
  · intro indexed _
    simp only [List.map_map, Function.comp_def]
    have keys := Library.OrdMap.keys_nodup indexed.1.functions
    rw [Library.OrdMap.keys] at keys
    have paired := keys.map (f := fun id => (indexed.2, id)) fun _ _ same =>
      (Prod.mk.inj same).2
    rwa [List.map_map] at paired
  · have distinct : (survey.modules.zipIdx.map Prod.snd).Nodup := by
      rw [List.zipIdx_map_snd]
      exact List.nodup_range'
    refine (List.pairwise_map.mp distinct).imp ?_
    intro first second different place inFirst inSecond
    simp only [Function.comp_apply, List.map_map, List.mem_map] at inFirst inSecond
    obtain ⟨_, _, rfl⟩ := inFirst
    obtain ⟨_, _, same⟩ := inSecond
    exact different (congrArg Prod.fst same).symm

theorem pushes_of_unknown {place : Place} (unknown : place ∉ survey.functionEntries.map Prod.fst) :
    survey.pushes place = [] := by
  unfold pushes
  cases found : survey.getFunction place with
  | none => rfl
  | some func =>
      exact absurd (List.mem_map.mpr ⟨_, mem_functionEntries.mpr found, rfl⟩) unknown

end Places

end Survey

end Rayzor.Bundle
