import Rayzor.Bundle.Live

/-!
Contract: the walk over a bundle ends, and has then reached what is live.
-/

namespace Rayzor.Bundle.Survey

open Ir
open Library (explore exploreWith)

variable {survey : Survey} {entry : Place} {walk : Walk}

structure Sound (survey : Survey) (entry : Place) (walk : Walk) : Prop where
  worklist : ∀ place ∈ walk.worklist, Live survey entry survey.InheritsFar (.function place)
  reached : ∀ item, walk.Reached item → Live survey entry survey.InheritsFar item
  pending : ∀ registration ∈ walk.pending, registration ∈ survey.registrations

/-- A place that was reached or still will be. -/
def Walk.Due (walk : Walk) (place : Place) : Prop :=
  place ∈ walk.functions ∨ place ∈ walk.worklist

/-- What a kept registration names has been reached or will be. -/
structure Honoured (survey : Survey) (walk : Walk) (registration : Registration) : Prop where
  callee : Mark.external (registration.module, registration.externId) ∈ walk.marks
  functions : ∀ id ∈ registration.refs, ∀ place, survey.targetFunction id = some place →
    walk.Due place
  externs : ∀ id ∈ registration.refs, ∀ place, survey.targetExtern id = some place →
    Mark.external place ∈ walk.marks

/-- Nothing that a walk has dealt with was forgotten. -/
structure Complete (survey : Survey) (entry : Place) (walk : Walk) : Prop where
  seeds : ∀ place ∈ survey.seeds entry, walk.Due place
  pushes : ∀ place ∈ walk.functions, ∀ next ∈ survey.pushes place, walk.Due next
  marks : ∀ place ∈ walk.functions, ∀ mark ∈ survey.marksOf place, mark ∈ walk.marks
  linked : ∀ place ∈ walk.linkedExterns, ∀ body ∈ survey.bareBodiesOf place, walk.Due body
  kept : ∀ registration ∈ walk.kept, Honoured survey walk registration
  listed : ∀ registration ∈ survey.registrations,
    registration ∈ walk.kept ∨ registration ∈ walk.pending
  apart : ∀ registration ∈ walk.pending, registration ∉ walk.kept
  globals : ∀ global, Mark.global global ∈ walk.marks →
    ∃ place ∈ walk.functions, Mark.global global ∈ survey.marksOf place

theorem Honoured.mono {walk' : Walk} {registration : Registration}
    (honoured : Honoured survey walk registration)
    (due : ∀ place, walk.Due place → walk'.Due place) (marks : walk.marks ⊆ walk'.marks) :
    Honoured survey walk' registration where
  callee := marks honoured.callee
  functions id member place leads := due place (honoured.functions id member place leads)
  externs id member place leads := marks (honoured.externs id member place leads)

@[simp] theorem mem_externsIn {marks : List Mark} {place : Place} :
    place ∈ externsIn marks ↔ Mark.external place ∈ marks := by
  simp only [externsIn, List.mem_filterMap]
  constructor
  · rintro ⟨mark, member, found⟩
    cases mark <;> simp_all
  · intro member
    exact ⟨_, member, rfl⟩

@[simp] theorem mem_classIdsIn {marks : List Mark} {id : Nat} :
    id ∈ classIdsIn marks ↔ Mark.classId id ∈ marks := by
  simp only [classIdsIn, List.mem_filterMap]
  constructor
  · rintro ⟨mark, member, found⟩
    cases mark <;> simp_all
  · intro member
    exact ⟨_, member, rfl⟩

theorem mem_foldl_marks {mark : Mark} (places : List Place) (marks : List Mark) :
    mark ∈ places.foldl (fun marks place => survey.marksOf place ++ marks) marks ↔
      mark ∈ marks ∨ ∃ place ∈ places, mark ∈ survey.marksOf place := by
  induction places generalizing marks with
  | nil => simp
  | cons place rest ih =>
      rw [List.foldl_cons, ih]
      simp only [List.mem_append, List.mem_cons, exists_eq_or_imp]
      tauto

structure Drained (survey : Survey) (walk walk' : Walk) : Prop where
  worklist : walk'.worklist = []
  kept : walk.functions ⊆ walk'.functions
  stacked : walk.worklist ⊆ walk'.functions
  closed : ∀ place ∈ walk'.functions, place ∉ walk.functions →
    ∀ next ∈ survey.pushes place, next ∈ walk'.functions
  sound : ∀ place ∈ walk'.functions, place ∈ walk.functions ∨ ∃ root ∈ walk.worklist,
    Relation.ReflTransGen (Library.Worklist.Follows survey.pushes) root place
  marks : ∀ mark, mark ∈ walk'.marks ↔ mark ∈ walk.marks ∨
    ∃ place ∈ walk'.functions, place ∉ walk.functions ∧ mark ∈ survey.marksOf place

theorem remaining_lt_drainFuel (survey : Survey) (walk : Walk) :
    Library.Worklist.remaining survey.pushes (survey.functionEntries.map Prod.fst)
      walk.worklist.reverse walk.functions < survey.drainFuel walk := by
  unfold Library.Worklist.remaining drainFuel
  refine Nat.lt_succ_of_le (Nat.add_le_add (le_of_eq List.length_reverse) ?_)
  have part := fun keep : Place → Bool => (List.filter_sublist (p := keep)
    (l := survey.functionEntries.map Prod.fst)).map fun place => (survey.pushes place).length
  refine le_trans ((part _).sum_le_sum fun _ _ => Nat.zero_le _) ?_
  rw [List.map_map]
  exact le_rfl

theorem drained (survey : Survey) (walk : Walk) : Drained survey walk (survey.drain walk) := by
  obtain ⟨kept, stacked, closed, sound⟩ := Library.Worklist.explored
    functionPlaces_nodup (fun _ unknown => pushes_of_unknown unknown)
    (remaining_lt_drainFuel survey walk)
  obtain ⟨fresh, new, found, effects⟩ := Library.Worklist.exploreWith_spec
    survey.pushes (fun marks place => survey.marksOf place ++ marks)
    (survey.drainFuel walk) walk.worklist.reverse (walk.functions, walk.marks)
  have functions : (survey.drain walk).functions = explore survey.pushes (survey.drainFuel walk)
      walk.worklist.reverse walk.functions := by
    simp only [drain, effects, found]
  rw [← functions] at kept stacked closed sound
  refine ⟨rfl, kept, fun place member => stacked (List.mem_reverse.mpr member), closed, ?_, ?_⟩
  · intro place member
    refine (sound place member).imp_right fun ⟨root, onStack, path⟩ => ?_
    exact ⟨root, List.mem_reverse.mp onStack, path⟩
  · intro mark
    have isMark : (survey.drain walk).marks =
        fresh.foldl (fun marks place => survey.marksOf place ++ marks) walk.marks := by
      simp only [drain, effects]
    rw [isMark, mem_foldl_marks, functions, found]
    refine or_congr_right (exists_congr fun place => ?_)
    constructor
    · rintro ⟨member, marked⟩
      exact ⟨by simp [member], new place member, marked⟩
    · rintro ⟨member, fresh', marked⟩
      refine ⟨?_, marked⟩
      rcases List.mem_append.mp member with inFresh | before
      · exact List.mem_reverse.mp inFresh
      · exact absurd before fresh'

theorem live_of_follows {Inherits : Nat → Nat → Prop} {root place : Place}
    (path : Relation.ReflTransGen (Library.Worklist.Follows survey.pushes) root place)
    (live : Live survey entry Inherits (.function root)) :
    Live survey entry Inherits (.function place) := by
  induction path with
  | refl => exact live
  | tail _ follows ih => exact .pushed ih follows

theorem Sound.drain (sound : Sound survey entry walk) :
    Sound survey entry (survey.drain walk) := by
  have done := drained survey walk
  have functions : ∀ place ∈ (survey.drain walk).functions,
      Live survey entry survey.InheritsFar (.function place) := by
    intro place member
    rcases done.sound place member with before | ⟨root, onStack, path⟩
    · exact sound.reached (.function place) before
    · exact live_of_follows path (sound.worklist root onStack)
  refine ⟨?_, ?_, sound.pending⟩
  · rw [done.worklist]
    exact fun place absurdly => absurd absurdly List.not_mem_nil
  · intro item reached
    cases item with
    | function place => exact functions place reached
    | mark mark =>
        rcases (done.marks mark).mp reached with before | ⟨place, member, _, marked⟩
        · exact sound.reached (.mark mark) before
        · exact .marked (functions place member) marked
    | registration registration => exact sound.reached (.registration registration) reached

theorem Complete.drain (complete : Complete survey entry walk) :
    Complete survey entry (survey.drain walk) := by
  have done := drained survey walk
  have due : ∀ place, walk.Due place → (survey.drain walk).Due place := fun place isDue =>
    Or.inl (isDue.elim (fun member => done.kept member) fun member => done.stacked member)
  have marks : walk.marks ⊆ (survey.drain walk).marks := fun mark member =>
    (done.marks mark).mpr (Or.inl member)
  refine ⟨fun place member => due place (complete.seeds place member), ?_, ?_,
    fun place member body linked => due body (complete.linked place member body linked),
    fun registration member => (complete.kept registration member).mono due marks,
    complete.listed, complete.apart, ?_⟩
  · intro place member next follows
    by_cases before : place ∈ walk.functions
    · exact due next (complete.pushes place before next follows)
    · exact Or.inl (done.closed place member before next follows)
  · intro place member mark marked
    by_cases before : place ∈ walk.functions
    · exact marks (complete.marks place before mark marked)
    · exact (done.marks mark).mpr (Or.inr ⟨place, member, before, marked⟩)
  · intro global marked
    rcases (done.marks _).mp marked with before | ⟨place, member, _, marks⟩
    · obtain ⟨place, member, marks⟩ := complete.globals global before
      exact ⟨place, done.kept member, marks⟩
    · exact ⟨place, member, marks⟩

theorem Sound.link (sound : Sound survey entry walk) : Sound survey entry (survey.link walk) := by
  refine ⟨fun place member => ?_, sound.reached, sound.pending⟩
  rcases List.mem_append.mp member with before | added
  · exact sound.worklist place before
  · obtain ⟨external, fresh, linked⟩ := List.mem_flatMap.mp added
    have marked := mem_externsIn.mp (List.mem_filter.mp fresh).1
    exact .linked (sound.reached (.mark (.external external)) marked) linked

theorem Complete.link (complete : Complete survey entry walk) :
    Complete survey entry (survey.link walk) := by
  have due : ∀ place, walk.Due place → (survey.link walk).Due place := fun place isDue =>
    isDue.imp_right fun member => List.mem_append_left _ member
  refine ⟨fun place member => due place (complete.seeds place member),
    fun place member next follows => due next (complete.pushes place member next follows),
    complete.marks, ?_,
    fun registration member => (complete.kept registration member).mono due (List.Subset.refl _),
    complete.listed, complete.apart, complete.globals⟩
  intro place member body linked
  rcases List.mem_append.mp member with fresh | before
  · exact Or.inr (List.mem_append_right _ (List.mem_flatMap.mpr ⟨place, fresh, linked⟩))
  · exact due body (complete.linked place before body linked)

theorem Sound.inherit (sound : Sound survey entry walk) :
    Sound survey entry (survey.inherit walk) := by
  refine ⟨sound.worklist, fun item reached => ?_, sound.pending⟩
  cases item with
  | function place => exact sound.reached (.function place) reached
  | registration registration => exact sound.reached (.registration registration) reached
  | mark mark =>
      rcases List.mem_append.mp reached with added | before
      · obtain ⟨ancestor, above, rfl⟩ := List.mem_map.mp added
        obtain ⟨id, held, within⟩ := List.mem_flatMap.mp above
        have live := sound.reached (.mark (.classId id)) (mem_classIdsIn.mp held)
        exact live.ancestor (far_of_ancestorsWithin within)
      · exact sound.reached (.mark mark) before

theorem Complete.inherit (complete : Complete survey entry walk) :
    Complete survey entry (survey.inherit walk) where
  seeds := complete.seeds
  pushes := complete.pushes
  marks place member mark marked :=
    List.mem_append_right _ (complete.marks place member mark marked)
  linked := complete.linked
  kept registration member := (complete.kept registration member).mono (fun _ isDue => isDue)
    (List.subset_append_right _ _)
  listed := complete.listed
  apart := complete.apart
  globals global marked := by
    rcases List.mem_append.mp marked with added | before
    · obtain ⟨_, _, absurdly⟩ := List.mem_map.mp added
      cases absurdly
    · exact complete.globals global before

theorem live_of_isLive (sound : Sound survey entry walk) {registration : Registration}
    (member : registration ∈ walk.pending) (isLive : survey.isLive walk registration) :
    Live survey entry survey.InheritsFar (.registration registration) := by
  have listed := sound.pending registration member
  unfold Survey.isLive at isLive
  cases isKey : registration.key with
  | cls id =>
      simp only [isKey, everyClass, Bool.or_eq_true, List.any_eq_true, Option.any_eq_true,
        Bool.and_eq_true, List.contains_eq_mem, decide_eq_true_eq] at isLive
      rcases isLive with (⟨place, reached, callee, found, byName⟩ |
        ⟨place, reached, func, found, noBlocks, byName⟩) | held
      · exact .ofExternByName listed isKey
          (sound.reached (.mark (.external place)) (mem_externsIn.mp reached)) found byName
      · exact .ofFunctionByName listed isKey (sound.reached (.function place) reached) found
          noBlocks byName
      · exact .ofClass listed isKey
          (sound.reached (.mark (.classId id)) (mem_classIdsIn.mp held))
  | target target =>
      simp only [isKey] at isLive
      split at isLive
      · rename_i unowned
        exact .ofUnowned listed isKey unowned
      · rename_i owner onlyDeclared owned
        have reached : (owner, target) ∈ walk.functions := by simpa using isLive
        exact .ofTarget listed isKey owned (sound.reached (.function (owner, target)) reached)

theorem Sound.register (sound : Sound survey entry walk) :
    Sound survey entry (survey.register walk) := by
  have live : ∀ registration ∈ walk.pending.filter (survey.isLive walk),
      Live survey entry survey.InheritsFar (.registration registration) := by
    intro registration member
    obtain ⟨pending, isLive⟩ := List.mem_filter.mp member
    exact live_of_isLive sound pending isLive
  refine ⟨?_, ?_, ?_⟩
  · intro place member
    rcases List.mem_append.mp member with before | added
    · exact sound.worklist place before
    · obtain ⟨id, inRefs, leads⟩ := List.mem_filterMap.mp added
      obtain ⟨registration, isLive, isRef⟩ := List.mem_flatMap.mp inRefs
      exact .refFunction (live registration isLive) isRef leads
  · intro item reached
    cases item with
    | function place => exact sound.reached (.function place) reached
    | registration registration =>
        rcases List.mem_append.mp reached with isLive | before
        · exact live registration isLive
        · exact sound.reached (.registration registration) before
    | mark mark =>
        rcases List.mem_append.mp reached with added | before
        · rcases List.mem_append.mp added with callees | externs
          · obtain ⟨registration, isLive, rfl⟩ := List.mem_map.mp callees
            exact .callee (live registration isLive)
          · obtain ⟨place, listed, rfl⟩ := List.mem_map.mp externs
            obtain ⟨id, inRefs, leads⟩ := List.mem_filterMap.mp listed
            obtain ⟨registration, isLive, isRef⟩ := List.mem_flatMap.mp inRefs
            exact .refExtern (live registration isLive) isRef leads
        · exact sound.reached (.mark mark) before
  · intro registration member
    exact sound.pending registration (List.mem_filter.mp member).1

theorem Complete.register (complete : Complete survey entry walk) :
    Complete survey entry (survey.register walk) := by
  have due : ∀ place, walk.Due place → (survey.register walk).Due place := fun place isDue =>
    isDue.imp_right fun member => List.mem_append_left _ member
  have marks : walk.marks ⊆ (survey.register walk).marks := fun mark member =>
    List.mem_append_right _ member
  refine ⟨fun place member => due place (complete.seeds place member),
    fun place member next follows => due next (complete.pushes place member next follows),
    fun place member mark marked => marks (complete.marks place member mark marked),
    fun place member body linked => due body (complete.linked place member body linked),
    ?_, ?_, ?_, ?_⟩
  · intro registration member
    rcases List.mem_append.mp member with live | before
    · refine ⟨?_, ?_, ?_⟩
      · exact List.mem_append_left _ (List.mem_append_left _
          (List.mem_map.mpr ⟨registration, live, rfl⟩))
      · intro id isRef place leads
        exact Or.inr (List.mem_append_right _ (List.mem_filterMap.mpr
          ⟨id, List.mem_flatMap.mpr ⟨registration, live, isRef⟩, leads⟩))
      · intro id isRef place leads
        refine List.mem_append_left _ (List.mem_append_right _ (List.mem_map.mpr ⟨place, ?_, rfl⟩))
        exact List.mem_filterMap.mpr
          ⟨id, List.mem_flatMap.mpr ⟨registration, live, isRef⟩, leads⟩
    · exact (complete.kept registration before).mono due marks
  · intro registration listed
    rcases complete.listed registration listed with before | pending
    · exact Or.inl (List.mem_append_right _ before)
    · cases live : survey.isLive walk registration with
      | true => exact Or.inl (List.mem_append_left _ (List.mem_filter.mpr ⟨pending, live⟩))
      | false => exact Or.inr (List.mem_filter.mpr ⟨pending, by simp [live]⟩)
  · intro registration member again
    obtain ⟨pending, notLive⟩ := List.mem_filter.mp member
    rcases List.mem_append.mp again with live | before
    · simp [(List.mem_filter.mp live).2] at notLive
    · exact complete.apart registration pending before
  · intro global marked
    rcases List.mem_append.mp marked with added | before
    · rcases List.mem_append.mp added with callees | externs
      · obtain ⟨_, _, absurdly⟩ := List.mem_map.mp callees
        cases absurdly
      · obtain ⟨_, _, absurdly⟩ := List.mem_map.mp externs
        cases absurdly
    · exact complete.globals global before

theorem Sound.round (sound : Sound survey entry walk) :
    Sound survey entry (survey.round walk).1 := sound.drain.link.inherit.register

theorem Complete.round (complete : Complete survey entry walk) :
    Complete survey entry (survey.round walk).1 := complete.drain.link.inherit.register

/-- The rounds that can still make progress: an extern to link, a registration to
keep. -/
def work (survey : Survey) (walk : Walk) : Nat :=
  (survey.externPlaces.filter fun place => !walk.linkedExterns.contains place).length +
    walk.pending.length

theorem work_round (more : (survey.round walk).2 = true) :
    work survey (survey.round walk).1 < work survey walk := by
  have fewerExterns : (survey.externPlaces.filter fun place =>
        !(survey.round walk).1.linkedExterns.contains place).Sublist
      (survey.externPlaces.filter fun place => !walk.linkedExterns.contains place) := by
    refine List.monotone_filter_right _ fun place fresh => ?_
    simp only [Bool.not_eq_true', List.contains_eq_mem, decide_eq_false_iff_not] at fresh ⊢
    exact fun before => fresh (List.mem_append_right _ before)
  have fewerPending : (survey.round walk).1.pending.Sublist walk.pending := List.filter_sublist
  have progress := Bool.or_eq_true_iff.mp more
  unfold work
  rcases progress with linked | live
  · -- a body was brought in for an extern that had not been linked
    have nonempty : (survey.link (survey.drain walk)).worklist ≠ [] := by
      intro empty
      have same : (survey.inherit (survey.link (survey.drain walk))).worklist = [] := empty
      rw [same] at linked
      exact absurd linked (by decide)
    obtain ⟨body, member⟩ := List.exists_mem_of_ne_nil _ nonempty
    obtain ⟨place, fresh, isBody⟩ := List.mem_flatMap.mp (show body ∈
      ((externsIn (survey.drain walk).marks).filter
        (· ∉ walk.linkedExterns)).flatMap survey.bareBodiesOf from member)
    have known : place ∈ survey.externPlaces := by
      refine mem_externPlaces.mpr ?_
      unfold bareBodiesOf at isBody
      split at isBody
      · rename_i callee found
        rw [found]
        rfl
      · exact absurd isBody List.not_mem_nil
    have before : place ∉ walk.linkedExterns := by
      simpa using (List.mem_filter.mp fresh).2
    have after : place ∈ (survey.round walk).1.linkedExterns := List.mem_append_left _ fresh
    have strictly : (survey.externPlaces.filter fun place =>
          !(survey.round walk).1.linkedExterns.contains place).length <
        (survey.externPlaces.filter fun place => !walk.linkedExterns.contains place).length := by
      refine lt_of_le_of_ne fewerExterns.length_le fun same => ?_
      have equal := fewerExterns.eq_of_length same
      have member : place ∈ survey.externPlaces.filter fun place =>
          !walk.linkedExterns.contains place :=
        List.mem_filter.mpr ⟨known, by simpa using before⟩
      rw [← equal] at member
      simpa [after] using (List.mem_filter.mp member).2
    have atMost := fewerPending.length_le
    omega
  · -- a registration leaves the pending ones
    obtain ⟨registration, pending, isLive⟩ := List.any_eq_true.mp live
    have strictly : (survey.round walk).1.pending.length < walk.pending.length := by
      refine lt_of_le_of_ne fewerPending.length_le fun same => ?_
      have equal := fewerPending.eq_of_length same
      have member : registration ∈ walk.pending := pending
      rw [← equal] at member
      simpa [isLive] using (List.mem_filter.mp member).2
    have atMost := fewerExterns.length_le
    omega

/-- The rounds end with one that finds nothing more to do. -/
theorem rounds_spec (Holds : Walk → Prop)
    (preserved : ∀ walk, Holds walk → Holds (survey.round walk).1) {count : Nat}
    (enough : work survey walk < count) (holds : Holds walk) :
    ∃ last, Holds last ∧ (survey.round last).2 = false ∧
      survey.rounds count walk = (survey.round last).1 := by
  induction count generalizing walk with
  | zero => omega
  | succ count ih =>
      unfold rounds
      cases more : (survey.round walk).2 with
      | true =>
          have less := work_round more
          simp only [more, if_true]
          exact ih (by omega) (preserved walk holds)
      | false => exact ⟨walk, holds, more, by simp [more]⟩

/-- A walk with nothing left to do. -/
structure Settled (survey : Survey) (entry : Place) (walk : Walk) : Prop where
  complete : Complete survey entry walk
  worklist : walk.worklist = []
  linked : ∀ place, Mark.external place ∈ walk.marks → place ∈ walk.linkedExterns
  inherited : ∀ place ∈ walk.functions, ∀ id, Mark.classId id ∈ survey.marksOf place →
    ∀ ancestor ∈ survey.ancestorsWithin 64 id, Mark.classId ancestor ∈ walk.marks
  pending : ∀ registration ∈ walk.pending, survey.isLive walk registration = false

theorem register_of_none_live (none : walk.pending.any (survey.isLive walk) = false) :
    survey.register walk = walk := by
  have live : walk.pending.filter (survey.isLive walk) = [] := by
    refine List.filter_eq_nil_iff.mpr fun registration member => ?_
    exact List.any_eq_false.mp none registration member
  have others : (walk.pending.filter fun registration => !survey.isLive walk registration) =
      walk.pending := by
    refine List.filter_eq_self.mpr fun registration member => ?_
    have notLive := List.any_eq_false.mp none registration member
    simpa using notLive
  unfold register
  simp only [live, others, List.flatMap_nil, List.filterMap_nil, List.map_nil, List.append_nil,
    List.nil_append]

theorem Complete.settled (complete : Complete survey entry walk)
    (last : (survey.round walk).2 = false) : Settled survey entry (survey.round walk).1 := by
  obtain ⟨emptied, notLive⟩ := Bool.or_eq_false_iff.mp last
  have unchanged : (survey.round walk).1 =
      survey.inherit (survey.link (survey.drain walk)) := register_of_none_live notLive
  have linked := complete.drain.link.inherit
  rw [unchanged]
  refine ⟨linked, by simpa using emptied, ?_, ?_, ?_⟩
  · intro place marked
    have before : Mark.external place ∈ (survey.drain walk).marks := by
      rcases List.mem_append.mp marked with added | before
      · obtain ⟨_, _, absurdly⟩ := List.mem_map.mp added
        cases absurdly
      · exact before
    by_cases already : place ∈ walk.linkedExterns
    · exact List.mem_append_right _ already
    · exact List.mem_append_left _ (List.mem_filter.mpr
        ⟨mem_externsIn.mpr before, decide_eq_true already⟩)
  · intro place member id held ancestor above
    have marked := complete.drain.link.marks place member _ held
    refine List.mem_append_left _ (List.mem_map.mpr ⟨ancestor, ?_, rfl⟩)
    exact List.mem_flatMap.mpr ⟨id, mem_classIdsIn.mpr marked, above⟩
  · intro registration member
    simpa using List.any_eq_false.mp notLive registration member

theorem Sound.start : Sound survey entry (survey.start entry) where
  worklist _ member := .seed member
  reached item reached := by
    cases item <;> exact absurd reached List.not_mem_nil
  pending _ member := member

theorem Complete.start : Complete survey entry (survey.start entry) where
  seeds _ member := Or.inr member
  pushes _ member := absurd member List.not_mem_nil
  marks _ member := absurd member List.not_mem_nil
  linked _ member := absurd member List.not_mem_nil
  kept _ member := absurd member List.not_mem_nil
  listed _ member := Or.inr member
  apart _ _ := List.not_mem_nil
  globals _ marked := absurd marked List.not_mem_nil

theorem walkFrom_spec (survey : Survey) (entry : Place) :
    Settled survey entry (survey.walkFrom entry) ∧ Sound survey entry (survey.walkFrom entry) := by
  have enough : work survey (survey.start entry) < survey.roundFuel := by
    have atMost := List.length_filter_le
      (fun place => !(survey.start entry).linkedExterns.contains place) survey.externPlaces
    have same : (survey.start entry).pending.length = survey.registrations.length := rfl
    unfold work roundFuel
    omega
  obtain ⟨last, ⟨complete, sound⟩, ended, isLast⟩ := rounds_spec
    (fun walk => Complete survey entry walk ∧ Sound survey entry walk)
    (fun walk ⟨complete, sound⟩ => ⟨complete.round, sound.round⟩) enough
    ⟨Complete.start, Sound.start⟩
  unfold walkFrom
  rw [isLast]
  exact ⟨complete.settled ended, sound.round⟩

theorem live_of_reached (item : Item) (reached : (survey.walkFrom entry).Reached item) :
    Live survey entry survey.InheritsFar item :=
  (walkFrom_spec survey entry).2.reached item reached

theorem Settled.function (settled : Settled survey entry walk) {place : Place}
    (due : walk.Due place) : place ∈ walk.functions := by
  refine due.resolve_right fun member => ?_
  rw [settled.worklist] at member
  exact absurd member List.not_mem_nil

theorem Settled.registration (settled : Settled survey entry walk) {registration : Registration}
    (listed : registration ∈ survey.registrations)
    (live : survey.isLive walk registration = true) : registration ∈ walk.kept := by
  refine (settled.complete.listed registration listed).resolve_right fun pending => ?_
  rw [settled.pending registration pending] at live
  exact absurd live (by decide)

/-- All that is live, ancestors counted as far as one round climbs, was reached. -/
theorem reached_of_live {item : Item} (live : Live survey entry survey.InheritsNear item) :
    (survey.walkFrom entry).Reached item := by
  have settled := (walkFrom_spec survey entry).1
  have complete := settled.complete
  induction live with
  | seed member => exact settled.function (complete.seeds _ member)
  | pushed _ follows reached => exact settled.function (complete.pushes _ reached _ follows)
  | marked _ marked reached => exact complete.marks _ reached _ marked
  | inherited _ held above reached => exact settled.inherited _ reached _ held _ above
  | linked _ isBody reached =>
      exact settled.function (complete.linked _ (settled.linked _ reached) _ isBody)
  | ofClass listed isKey _ reached =>
      refine settled.registration listed ?_
      simp only [isLive, isKey, Bool.or_eq_true, List.contains_eq_mem, decide_eq_true_eq]
      exact Or.inr (mem_classIdsIn.mpr reached)
  | ofExternByName listed isKey _ found byName reached =>
      refine settled.registration listed ?_
      simp only [isLive, isKey, everyClass, Bool.or_eq_true, List.any_eq_true]
      exact Or.inl (Or.inl ⟨_, mem_externsIn.mpr reached, by simpa [found] using byName⟩)
  | ofFunctionByName listed isKey _ found noBlocks byName reached =>
      refine settled.registration listed ?_
      simp only [isLive, isKey, everyClass, Bool.or_eq_true, List.any_eq_true]
      exact Or.inl (Or.inr ⟨_, reached, by simp [found, noBlocks, byName]⟩)
  | ofTarget listed isKey owned _ reached =>
      refine settled.registration listed ?_
      simp only [isLive, isKey, owned, List.contains_eq_mem, decide_eq_true_eq]
      exact reached
  | ofUnowned listed isKey unowned =>
      refine settled.registration listed ?_
      simp only [isLive, isKey, unowned]
  | callee _ reached => exact (complete.kept _ reached).callee
  | refFunction _ isRef leads reached =>
      exact settled.function ((complete.kept _ reached).functions _ isRef _ leads)
  | refExtern _ isRef leads reached => exact (complete.kept _ reached).externs _ isRef _ leads

theorem pending_iff {registration : Registration}
    (listed : registration ∈ survey.registrations) :
    registration ∈ (survey.walkFrom entry).pending ↔
      registration ∉ (survey.walkFrom entry).kept := by
  have complete := (walkFrom_spec survey entry).1.complete
  exact ⟨complete.apart registration, (complete.listed registration listed).resolve_left⟩

end Rayzor.Bundle.Survey
