import Rayzor.Tiering.PromotionBarrier

/-!
Contract: the promotion barrier over whole runs.

Owns: the invariant of the barrier, that every step of a run in which no wake-up is sent
before a sleeper sleeps, no cancellation releases another promoter's request and the
counter has room keeps it, and the two runs in which the barrier fails otherwise.

Does not own: fairness, and the order in which weaker memory than one interleaving may
show the atomics.
-/

namespace Rayzor.Tiering

open Library.Interleaving

variable {Agent : Type} [Fintype Agent]

/-- The steps that the barrier is right about. -/
structure Careful (config : Config Agent (PromotionBarrier Agent) Phase) (agent : Agent) :
    Prop where
  /-- The last wake-up at an idle barrier is not sent while a thread stands between its
  check of the state and its wait. -/
  wakesSleepers : config.phase agent = .notifying → config.shared.state = .idle →
    (∃ sleeper, config.phase sleeper = .checked) →
      ∃ waker, waker ≠ agent ∧ (config.phase waker).notifies = true
  /-- A cancellation that has released its own request does not find another one in
  progress. -/
  cancelsOnce : ∀ swapped, config.phase agent = .cancellingSwap swapped true →
    config.shared.state ≠ .promotionInProgress
  /-- The counter has room for one more execution. -/
  hasRoom : ∀ waits, config.phase agent = .admitted waits →
    count config Phase.counts + 1 < counterSize

def Phase.fits : Phase → PromotionState → Bool
  | .draining, state | .drained, state | .undrained, state | .timedOut, state
  | .completing false, state | .cancelling false, state => state == .promotionRequested
  | .cancellingSwap false false, _ => false
  | phase, state => !phase.swaps || state == .promotionInProgress

/-- A promoter that has found no execution. -/
def Phase.excludes : Phase → Bool
  | .drained => true
  | phase => phase.swaps

structure Sound (config : Config Agent (PromotionBarrier Agent) Phase) : Prop where
  counter : config.shared.executionCounter = count config Phase.counts
  bounded : config.shared.executionCounter < counterSize
  fits : ∀ agent, (config.phase agent).fits config.shared.state = true
  onePromoter : ∀ promoter other, (config.phase promoter).promotes = true →
    (config.phase other).promotes = true → promoter = other
  promoted : config.shared.state ≠ .idle → ∃ promoter, (config.phase promoter).promotes = true
  drained : ∀ promoter agent, (config.phase promoter).excludes = true →
    config.phase agent ≠ .inside
  woken : config.shared.state = .idle →
    config.shared.waiting.Nonempty ∨ (∃ agent, config.phase agent = .checked) →
      ∃ waker, (config.phase waker).notifies = true

theorem sound_initial : Sound (initial : Config Agent (PromotionBarrier Agent) Phase) where
  counter := by simp [initial, count, Phase.counts]
  bounded := by simp [initial, counterSize]
  fits := fun _ => rfl
  onePromoter := by
    intro _ _ promotes
    cases promotes
  promoted := fun busy => absurd rfl busy
  drained := by
    intro _ _ excludes
    cases excludes
  woken := by
    intro _ sleeps
    apply sleeps.elim
    · intro isNonempty
      exact absurd isNonempty Set.not_nonempty_empty
    · intro hasChecked
      cases hasChecked with
      | intro agent isChecked => cases isChecked

theorem fits_of_not_promotes {phase : Phase} (rests : phase.promotes = false)
    (state : PromotionState) : phase.fits state = true := by
  cases phase with
  | completing swapped | cancelling swapped => cases swapped <;> first | rfl | cases rests
  | cancellingSwap swapped released =>
      cases swapped <;> cases released <;> first | rfl | cases rests
  | _ => first | rfl | cases rests

theorem busy_of_promotes {phase : Phase} {state : PromotionState} (fits : phase.fits state = true)
    (promotes : phase.promotes = true) : state ≠ .idle := by
  intro isIdle
  rw [isIdle] at fits
  cases phase with
  | completing swapped | cancelling swapped => cases swapped <;> cases fits
  | cancellingSwap swapped released =>
      cases swapped <;> cases released <;> first | exact Bool.noConfusion promotes | cases fits
  | _ => first | exact Bool.noConfusion promotes | cases fits

theorem promotes_of_excludes {phase : Phase} (excludes : phase.excludes = true) :
    phase.promotes = true := by
  cases phase with
  | completing swapped | cancelling swapped => cases swapped <;> rfl
  | cancellingSwap swapped released =>
      cases swapped <;> cases released <;> first | rfl | cases excludes
  | _ => first | rfl | cases excludes

theorem excludes_of_swaps {phase : Phase} (swaps : phase.swaps = true) :
    phase.excludes = true := by
  cases phase <;> first | exact swaps | rfl

variable {config : Config Agent (PromotionBarrier Agent) Phase} {agent : Agent}
  {barrier : PromotionBarrier Agent} {before phase : Phase}

theorem Sound.rests (sound : Sound config) (isIdle : config.shared.state = .idle)
    (other : Agent) : (config.phase other).promotes = false :=
  Bool.eq_false_iff.mpr fun promotes => busy_of_promotes (sound.fits other) promotes isIdle

theorem Sound.restsBeside (sound : Sound config) (promotes : (config.phase agent).promotes = true)
    {other : Agent} (differs : other ≠ agent) : (config.phase other).promotes = false :=
  Bool.eq_false_iff.mpr fun otherPromotes =>
    differs (sound.onePromoter other agent otherPromotes promotes)

theorem state_of_acts (sound : Sound config) (careful : Careful config agent)
    (stands : config.phase agent = before) (acts : Acts agent config.shared before barrier phase) :
    (barrier.state = config.shared.state ∧ phase.promotes = before.promotes) ∨
      (∀ other, other ≠ agent → (config.phase other).promotes = false) ∧
        (barrier.state ≠ .idle → phase.promotes = true) := by
  have fits := stands ▸ sound.fits agent
  have alone : before.promotes = true → ∀ other, other ≠ agent →
      (config.phase other).promotes = false := by
    intro promotes other differs
    have isPromoter : (config.phase agent).promotes = true := by rw [stands, promotes]
    exact sound.restsBeside isPromoter differs
  cases acts with
  | granted isIdle => exact Or.inr ⟨fun other _ => sound.rests isIdle other, fun _ => rfl⟩
  | advance | completeAnyway | complete | cancelSwap | cancel =>
      exact Or.inr ⟨alone rfl, fun _ => rfl⟩
  | storeIdle => exact Or.inr ⟨alone (promotes_completing _), fun busy => absurd rfl busy⟩
  | resetRequested => exact Or.inr ⟨alone (promotes_cancelling _), fun busy => absurd rfl busy⟩
  | keepOther =>
      exact Or.inr ⟨alone (promotes_cancelling _), fun _ => promotes_cancellingSwap _ false⟩
  | @resetInProgress _ _ swapped released isInProgress =>
      cases released with
      | false =>
          exact Or.inr ⟨alone (promotes_cancellingSwap swapped false), fun busy => absurd rfl busy⟩
      | true => exact absurd isInProgress (careful.cancelsOnce swapped stands)
  | @keepState _ _ swapped released isOther =>
      cases released with
      | false =>
          cases swapped with
          | false => cases fits
          | true => exact absurd (beq_iff_eq.mp fits) isOther
      | true => exact Or.inl ⟨rfl, (promotes_cancellingSwap swapped true).symm⟩
  | loadBusy | notifyDrain => exact Or.inl ⟨rfl, promotes_afterRefusal _⟩
  | count => exact Or.inl ⟨state_increment _, rfl⟩
  | uncount | exit => exact Or.inl ⟨state_decrement _, rfl⟩
  | _ => exact Or.inl ⟨rfl, rfl⟩

theorem fits_of_acts (sound : Sound config) (stands : config.phase agent = before)
    (acts : Acts agent config.shared before barrier phase) :
    phase.fits barrier.state = true := by
  have fits := stands ▸ sound.fits agent
  cases acts with
  | granted | advance => rfl
  | foundDrained | foundUndrained | again | expire => exact fits
  | complete | completeAnyway | cancelSwap | cancel => exact fits
  | @keepOther _ _ swapped isOther =>
      cases swapped with
      | false => exact absurd (beq_iff_eq.mp fits) isOther
      | true => exact fits
  | resetRequested => exact fits_of_not_promotes (promotes_cancellingSwap _ true) _
  | loadBusy | notifyDrain => exact fits_of_not_promotes (promotes_afterRefusal _) _
  | _ => exact fits_of_not_promotes rfl _

omit [Fintype Agent] in
/-- An execution starts at an idle barrier only. -/
theorem inside_of_acts {shared : PromotionBarrier Agent}
    (acts : Acts agent shared before barrier phase) (isInside : phase = .inside) :
    shared.state = .idle := by
  cases acts with
  | confirm isIdle => exact isIdle
  | loadBusy | notifyDrain => exact absurd isInside (afterRefusal_ne_inside _)
  | _ => cases isInside

omit [Fintype Agent] in
/-- A promoter goes on to exclude executions once it has counted none. -/
theorem excludes_of_acts {shared : PromotionBarrier Agent}
    (acts : Acts agent shared before barrier phase) (excludes : phase.excludes = true) :
    before.excludes = true ∨ shared.executionCounter = 0 := by
  cases acts with
  | foundDrained isZero => exact Or.inr isZero
  | advance => exact Or.inl rfl
  | complete | cancelSwap => exact Or.inl rfl
  | @keepOther _ _ swapped =>
      cases swapped with
      | false => cases excludes
      | true => exact Or.inl rfl
  | @resetRequested _ _ swapped => cases swapped <;> cases excludes
  | @loadBusy _ _ waits | @notifyDrain _ _ waits => cases waits <;> cases excludes
  | _ => cases excludes

theorem waker_of_acts (sound : Sound config) (careful : Careful config agent)
    (stands : config.phase agent = before) (acts : Acts agent config.shared before barrier phase)
    (isIdle : barrier.state = .idle)
    (sleeps : barrier.waiting.Nonempty ∨ phase = .checked ∨
      ∃ sleeper, sleeper ≠ agent ∧ config.phase sleeper = .checked) :
    phase.notifies = true ∨ ∃ waker, waker ≠ agent ∧ (config.phase waker).notifies = true := by
  have others : before.notifies = false → config.shared.state = .idle →
      config.shared.waiting.Nonempty ∨ (∃ sleeper, config.phase sleeper = .checked) →
      ∃ waker, waker ≠ agent ∧ (config.phase waker).notifies = true := by
    intro isQuiet wasIdle slept
    obtain ⟨waker, notifies⟩ := sound.woken wasIdle slept
    refine ⟨waker, fun same => ?_, notifies⟩
    rw [same, stands, isQuiet] at notifies
    cases notifies
  have stillSleeps : phase ≠ .checked → barrier.waiting ⊆ config.shared.waiting →
      config.shared.waiting.Nonempty ∨ (∃ sleeper, config.phase sleeper = .checked) := by
    intro isNot shrinks
    refine sleeps.imp (fun isNonempty => isNonempty.mono shrinks) fun hasChecked => ?_
    obtain ⟨sleeper, -, isChecked⟩ := hasChecked.resolve_left isNot
    exact ⟨sleeper, isChecked⟩
  cases acts with
  | storeIdle | resetInProgress | keepState => exact Or.inl rfl
  | resetRequested => exact Or.inl (notifies_cancellingSwap _ true)
  | granted | advance => cases isIdle
  | recheckBusy isBusy => exact absurd isIdle isBusy
  | wait => exact Or.inr (others rfl isIdle (Or.inr ⟨agent, stands⟩))
  | wakeSpuriously =>
      exact Or.inr (others rfl isIdle (stillSleeps Phase.noConfusion Set.sdiff_subset))
  | notifyAll =>
      have isChecked := sleeps.resolve_left Set.not_nonempty_empty
      obtain ⟨sleeper, -, isChecked⟩ := isChecked.resolve_left Phase.noConfusion
      exact Or.inr (careful.wakesSleepers stands isIdle ⟨sleeper, isChecked⟩)
  | loadBusy isBusy => exact absurd isIdle isBusy
  | notifyDrain =>
      exact Or.inr (others rfl isIdle (stillSleeps (afterRefusal_ne_checked _) subset_rfl))
  | keepOther =>
      exact absurd isIdle (busy_of_promotes (stands ▸ sound.fits agent) (promotes_cancelling _))
  | count =>
      exact Or.inr (others rfl ((state_increment _).symm.trans isIdle)
        (stillSleeps Phase.noConfusion (waiting_increment _).subset))
  | uncount | exit =>
      exact Or.inr (others rfl ((state_decrement _).symm.trans isIdle)
        (stillSleeps Phase.noConfusion (waiting_decrement _).subset))
  | _ => exact Or.inr (others rfl isIdle (stillSleeps Phase.noConfusion subset_rfl))

section

variable [DecidableEq Agent]

theorem counter_kept (sound : Sound config) (careful : Careful config agent)
    (stands : config.phase agent = before)
    (acts : Acts agent config.shared before barrier phase) :
    barrier.executionCounter = count (config.move agent barrier phase) Phase.counts ∧
      barrier.executionCounter < counterSize := by
  have counter := sound.counter
  have bounded := sound.bounded
  have moved := count_move config agent barrier phase Phase.counts
  rw [stands] at moved
  have positive : before.counts = true → 0 < count config Phase.counts := by
    intro isCounted
    have isIn : (config.phase agent).counts = true := by rw [stands, isCounted]
    exact count_pos isIn
  cases acts with
  | count =>
      have hasRoom := careful.hasRoom _ stands
      have grows : config.shared.executionCounter + 1 < counterSize := counter ▸ hasRoom
      simp only [Phase.counts, Bool.toNat_false, Bool.toNat_true] at moved
      rw [executionCounter_increment grows]
      omega
  | uncount | exit =>
      have isPositive := positive rfl
      simp only [Phase.counts, Bool.toNat_false, Bool.toNat_true] at moved
      rw [executionCounter_decrement (counter ▸ isPositive) bounded]
      omega
  | loadBusy | notifyDrain =>
      rw [counts_afterRefusal] at moved
      exact ⟨counter.trans moved.symm, bounded⟩
  | confirm | refuse =>
      simp only [Phase.counts, Bool.toNat_true] at moved
      exact ⟨by omega, bounded⟩
  | _ => exact ⟨counter.trans moved.symm, bounded⟩

theorem Sound.kept (sound : Sound config) (careful : Careful config agent)
    (acts : Acts agent config.shared (config.phase agent) barrier phase) :
    Sound (config.move agent barrier phase) where
  counter := (counter_kept sound careful rfl acts).1
  bounded := (counter_kept sound careful rfl acts).2
  fits := by
    intro other
    rw [phase_move, shared_move]
    split_ifs with same
    · exact fits_of_acts sound rfl acts
    · apply (state_of_acts sound careful rfl acts).elim
      · intro unchanged
        rw [unchanged.1]
        exact sound.fits other
      · intro alone
        exact fits_of_not_promotes (alone.1 other same) _
  onePromoter := by
    intro promoter other promotes otherPromotes
    rw [phase_move] at promotes otherPromotes
    apply (state_of_acts sound careful rfl acts).elim
    · intro unchanged
      apply sound.onePromoter
      · split_ifs at promotes with same
        · rw [same, ← unchanged.2, promotes]
        · exact promotes
      · split_ifs at otherPromotes with same
        · rw [same, ← unchanged.2, otherPromotes]
        · exact otherPromotes
    · intro alone
      have isAgent : ∀ who, (if who = agent then phase else config.phase who).promotes = true →
          who = agent := by
        intro who whoPromotes
        by_contra differs
        rw [if_neg differs, alone.1 who differs] at whoPromotes
        cases whoPromotes
      rw [isAgent promoter promotes, isAgent other otherPromotes]
  promoted := by
    intro busy
    apply (state_of_acts sound careful rfl acts).elim
    · intro unchanged
      obtain ⟨promoter, promotes⟩ := sound.promoted (unchanged.1 ▸ busy)
      refine ⟨promoter, ?_⟩
      rw [phase_move]
      split_ifs with same
      · rw [unchanged.2, ← same, promotes]
      · exact promotes
    · intro alone
      exact ⟨agent, by rw [phase_move_self, alone.2 busy]⟩
  drained := by
    intro promoter other excludes
    rw [phase_move] at excludes
    rw [phase_move]
    split_ifs with same
    · intro isInside
      have isIdle := inside_of_acts acts isInside
      split_ifs at excludes with samePromoter
      · rw [isInside] at excludes
        cases excludes
      · have rests := sound.rests isIdle promoter
        rw [promotes_of_excludes excludes] at rests
        cases rests
    · split_ifs at excludes with samePromoter
      · apply (excludes_of_acts acts excludes).elim
        · exact fun excluded => sound.drained agent other excluded
        · intro isZero isInside
          have isCounted := count_eq_zero (sound.counter ▸ isZero) other
          rw [isInside] at isCounted
          cases isCounted
      · exact sound.drained promoter other excludes
  woken := by
    intro isIdle sleeps
    have slept : barrier.waiting.Nonempty ∨ phase = .checked ∨
        ∃ sleeper, sleeper ≠ agent ∧ config.phase sleeper = .checked := by
      refine sleeps.imp id fun hasChecked => ?_
      obtain ⟨sleeper, isChecked⟩ := hasChecked
      rw [phase_move] at isChecked
      split_ifs at isChecked with same
      · exact Or.inl isChecked
      · exact Or.inr ⟨sleeper, same, isChecked⟩
    apply (waker_of_acts sound careful rfl acts isIdle slept).elim
    · intro notifies
      exact ⟨agent, by rw [phase_move_self, notifies]⟩
    · intro hasWaker
      obtain ⟨waker, differs, notifies⟩ := hasWaker
      exact ⟨waker, by rw [phase_move_of_ne config differs, notifies]⟩

end

theorem Sound.safe (sound : Sound config) : Safe config where
  exclusion := fun promoter agent swaps => sound.drained promoter agent (excludes_of_swaps swaps)
  onePromoter := sound.onePromoter
  counter := sound.counter
  noneStranded := fun isIdle agent isWaiting =>
    sound.woken isIdle (Or.inl ⟨agent, isWaiting⟩)

/-- In every run of careful steps the barrier keeps its guarantees. -/
theorem excludes_of_careful [DecidableEq Agent]
    (reaches : Reaches Acts Careful (initial : Config Agent (PromotionBarrier Agent) Phase) config) :
    Safe config := by
  apply Sound.safe
  apply reaches.invariant sound_initial
  intro before agent barrier phase sound careful acts
  exact sound.kept careful acts

theorem careful_of_quiet {config : Config Agent (PromotionBarrier Agent) Phase} {agent : Agent}
    (isQuiet : (config.phase agent).notifies = false)
    (hasRoom : count config Phase.counts + 1 < counterSize) : Careful config agent where
  wakesSleepers := by
    intro notifies
    rw [notifies] at isQuiet
    cases isQuiet
  cancelsOnce := by
    intro swapped cancels
    rw [cancels, notifies_cancellingSwap] at isQuiet
    cases isQuiet
  hasRoom := fun _ _ => hasRoom

/-- A thread that arrives while code is swapped waits. -/
theorem excludes_of_careful_drained : ∃ config : Config Bool (PromotionBarrier Bool) Phase,
    Reaches Acts Careful initial config ∧ config.phase false = .swapping ∧
      config.phase true = .checked ∧ Safe config := by
  have step : ∀ {config : Config Bool (PromotionBarrier Bool) Phase}
      {barrier : PromotionBarrier Bool} {phase : Phase} (agent : Bool),
      Reaches Acts Careful initial config → (config.phase agent).notifies = false →
      Acts agent config.shared (config.phase agent) barrier phase →
      Reaches Acts Careful initial (config.move agent barrier phase) := by
    intro config barrier phase agent reaches isQuiet acts
    refine reaches.tail (Step.mk (careful_of_quiet isQuiet ?_) acts)
    have atMost := Finset.card_le_univ
      (Finset.univ.filter fun other => (config.phase other).counts = true)
    rw [Fintype.card_bool] at atMost
    simp only [count, counterSize]
    omega
  have requesting := step false Relation.ReflTransGen.refl rfl Acts.request
  have draining := step false requesting rfl (Acts.granted rfl)
  have drained := step false draining rfl (Acts.foundDrained rfl)
  have swapping := step false drained rfl Acts.advance
  have starting := step true swapping rfl (Acts.enter true)
  have locking := step true starting rfl (Acts.loadBusy PromotionState.noConfusion)
  have locked := step true locking rfl (Acts.lock rfl)
  have checked := step true locked rfl (Acts.recheckBusy PromotionState.noConfusion)
  exact ⟨_, checked, rfl, rfl, excludes_of_careful checked⟩

/-- A promotion completes between a thread's check of the state and its wait: the thread
sleeps at an idle barrier, and nobody is about to wake it. -/
theorem sleeper_stranded : ∃ config : Config Bool (PromotionBarrier Bool) Phase,
    Reaches Acts anyStep initial config ∧ config.shared.state = .idle ∧
      true ∈ config.shared.waiting ∧ config.phase true = .asleep ∧
      config.phase false = .resting ∧ ¬ Safe config := by
  have start : Reaches Acts anyStep
      (initial : Config Bool (PromotionBarrier Bool) Phase) initial := Relation.ReflTransGen.refl
  have promoter := (((start.then false Acts.request).then false (Acts.granted rfl)).then false
    (Acts.foundDrained rfl)).then false Acts.advance
  have sleeper := (((promoter.then true (Acts.enter true)).then true
    (Acts.loadBusy PromotionState.noConfusion)).then true (Acts.lock rfl)).then true
    (Acts.recheckBusy PromotionState.noConfusion)
  have completed := ((sleeper.then false Acts.complete).then false Acts.storeIdle).then false
    Acts.notifyAll
  have asleep := completed.then true Acts.wait
  refine ⟨_, asleep, rfl, Set.mem_insert _ _, rfl, rfl, fun safe => ?_⟩
  obtain ⟨waker, notifies⟩ := safe.noneStranded rfl true (Set.mem_insert _ _)
  cases waker <;> cases notifies

/-- A promoter that gives up resets the state twice. Between the two, another promotion
is requested and drained: the second reset releases it, and a thread enters the execution
while code is swapped. -/
theorem cancellation_admits : ∃ config : Config (Fin 3) (PromotionBarrier (Fin 3)) Phase,
    Reaches Acts anyStep initial config ∧ config.phase 1 = .swapping ∧
      config.phase 2 = .inside := by
  have start : Reaches Acts anyStep
      (initial : Config (Fin 3) (PromotionBarrier (Fin 3)) Phase) initial :=
    Relation.ReflTransGen.refl
  have inside := (((start.then 2 (Acts.enter false)).then 2 (Acts.loadIdle rfl)).then 2
    Acts.count).then 2 (Acts.confirm rfl)
  have timedOut := (((inside.then 0 Acts.request).then 0 (Acts.granted rfl)).then 0
    (Acts.foundUndrained Nat.noConfusion)).then 0 Acts.expire
  have released := (timedOut.then 0 Acts.cancel).then 0 (Acts.resetRequested rfl)
  have left := (released.then 2 Acts.exit).then 2 (Acts.exitQuietly (Or.inr rfl))
  have swapping := (((left.then 1 Acts.request).then 1 (Acts.granted rfl)).then 1
    (Acts.foundDrained rfl)).then 1 Acts.advance
  have reset := swapping.then 0 (Acts.resetInProgress rfl)
  have admitted := (((reset.then 2 (Acts.enter false)).then 2 (Acts.loadIdle rfl)).then 2
    Acts.count).then 2 (Acts.confirm rfl)
  exact ⟨_, admitted, rfl, rfl⟩

end Rayzor.Tiering
