import Rayzor.Channels.Delivery

/-!
Contract: nobody sleeps on at a channel that is ready.
-/

namespace Rayzor.Channels

open Library Library.Interleaving

variable {Agent Name Value : Type} [DecidableEq Name] {agent : Agent}
  {system : System Agent Name Value} {before phase : Phase Name Value}

theorem MaySend.sleeps {name other : Name} {value : Value} {waits : Bool} {condvar : Condvar}
    (may : MaySend agent system before name value waits)
    (slept : before.sleeps other condvar = true) :
    other = name ∧ condvar = .notFull ∧ waits = true ∧
      agent ∉ (system.channels other).waiting condvar := by
  cases may with
  | comes => cases slept
  | wakes isAwake =>
      simp only [Phase.sleeps, Bool.and_eq_true, decide_eq_true_eq] at slept
      exact ⟨slept.1.symm, slept.2, rfl, slept.1 ▸ slept.2 ▸ isAwake⟩

theorem MayReceive.sleeps {name other : Name} {waits : Bool} {condvar : Condvar}
    (may : MayReceive agent system before name waits)
    (slept : before.sleeps other condvar = true) :
    other = name ∧ condvar = .notEmpty ∧ waits = true ∧
      agent ∉ (system.channels other).waiting condvar := by
  cases may with
  | comes => cases slept
  | wakes isAwake =>
      simp only [Phase.sleeps, Bool.and_eq_true, decide_eq_true_eq] at slept
      exact ⟨slept.1.symm, slept.2, rfl, slept.1 ▸ slept.2 ▸ isAwake⟩

theorem MaySend.quiet {name other : Name} {value : Value} {waits : Bool}
    {condvar : Condvar} (may : MaySend agent system before name value waits) :
    before.notifiesOne other condvar = false ∧ before.notifiesAll other condvar = false := by
  cases may <;> exact ⟨rfl, rfl⟩

theorem MayReceive.quiet {name other : Name} {waits : Bool} {condvar : Condvar}
    (may : MayReceive agent system before name waits) :
    before.notifiesOne other condvar = false ∧ before.notifiesAll other condvar = false := by
  cases may <;> exact ⟨rfl, rfl⟩

theorem waiting_setWaiting (system : System Agent Name Value) (name : Name) (condvar : Condvar)
    (agents : Finset Agent) (other : Name) (otherCondvar : Condvar) :
    ((system.update name ((system.channels name).setWaiting condvar agents)).channels
      other).waiting otherCondvar = if other = name ∧ otherCondvar = condvar then agents
        else (system.channels other).waiting otherCondvar := by
  rw [channels_update]
  by_cases same : other = name
  · rw [if_pos same, same]
    by_cases sameCondvar : otherCondvar = condvar
    · rw [if_pos ⟨rfl, sameCondvar⟩, sameCondvar]
      exact Function.update_self condvar agents (system.channels name).waiting
    · rw [if_neg fun both => sameCondvar both.2]
      exact Function.update_of_ne sameCondvar agents (system.channels name).waiting
  · rw [if_neg same, if_neg fun both => same both.1]

theorem offers_setWaiting (system : System Agent Name Value) (name : Name) (condvar : Condvar)
    (agents : Finset Agent) (other : Name) (otherCondvar : Condvar) :
    ((system.update name ((system.channels name).setWaiting condvar agents)).channels
      other).offers otherCondvar = (system.channels other).offers otherCondvar := by
  have unchanged := unchanged_setWaiting system name condvar agents other
  cases otherCondvar with
  | notEmpty => rw [Channel.offers, unchanged.1, Channel.offers]
  | notFull => rw [Channel.offers, unchanged.1, unchanged.2.1, Channel.offers]

theorem kept_update {Part : Type} (part : Channel Agent Value → Part)
    {system : System Agent Name Value} {name : Name} {channel : Channel Agent Value}
    (same : part channel = part (system.channels name)) (other : Name) :
    part ((system.update name channel).channels other) = part (system.channels other) := by
  rw [channels_update]
  split_ifs with isHere
  · rw [isHere, same]
  · rfl

variable [Fintype Agent]

/-- Whoever sleeps is accounted for: by a closer, or by one wake-up for each value or each
place. -/
structure Wakeful (config : Config Agent (System Agent Name Value) (Phase Name Value)) :
    Prop where
  asleep : ∀ name condvar, ∀ agent ∈ (config.shared.channels name).waiting condvar,
    (config.phase agent).sleeps name condvar = true
  bounds : ∀ name, ((config.shared.channels name).waiting .notFull).Nonempty →
    0 < (config.shared.channels name).capacity
  closing : ∀ name condvar, (config.shared.channels name).closed = true →
    ((config.shared.channels name).waiting condvar).Nonempty →
      ∃ closer, (config.phase closer).notifiesAll name condvar = true
  enough : ∀ name condvar, (config.shared.channels name).closed = false →
    ((config.shared.channels name).waiting condvar).Nonempty →
      (config.shared.channels name).offers condvar +
          ((config.shared.channels name).waiting condvar).card ≤
        count config (Phase.notifiesOne name condvar) + count config (Phase.sleeps name condvar)

theorem wakeful_initial (capacities : Name → Int) :
    Wakeful (initial capacities : Config Agent (System Agent Name Value) (Phase Name Value)) where
  asleep := fun _ _ _ isIn => absurd isIn (Finset.notMem_empty _)
  bounds := fun _ isNonempty => absurd isNonempty Finset.not_nonempty_empty
  closing := fun _ _ _ isNonempty => absurd isNonempty Finset.not_nonempty_empty
  enough := fun _ _ _ isNonempty => absurd isNonempty Finset.not_nonempty_empty

variable {config : Config Agent (System Agent Name Value) (Phase Name Value)}

/-- Whoever acts and has not gone to sleep waits nowhere. -/
theorem Wakeful.awake (wakeful : Wakeful config) (stands : config.phase agent = before)
    (slept : ∀ name condvar, before.sleeps name condvar = true →
      agent ∉ (config.shared.channels name).waiting condvar) (name : Name) (condvar : Condvar) :
    agent ∉ (config.shared.channels name).waiting condvar := fun isWaiting =>
  slept name condvar (stands ▸ wakeful.asleep name condvar agent isWaiting) isWaiting

variable [DecidableEq Agent]

/-- What a step has to show that puts nobody to sleep. -/
theorem Wakeful.kept (wakeful : Wakeful config) (stands : config.phase agent = before)
    (capacity : ∀ name, (system.channels name).capacity = (config.shared.channels name).capacity)
    (staysClosed : ∀ name, (system.channels name).closed = false →
      (config.shared.channels name).closed = false)
    (shrinks : ∀ name condvar, (system.channels name).waiting condvar ⊆
      (config.shared.channels name).waiting condvar)
    (asleep : ∀ name condvar, agent ∈ (system.channels name).waiting condvar →
      phase.sleeps name condvar = true)
    (closers : ∀ name condvar, (system.channels name).closed = true →
      ((system.channels name).waiting condvar).Nonempty →
        phase.notifiesAll name condvar = true ∨
          (config.shared.channels name).closed = true ∧ before.notifiesAll name condvar = false)
    (enough : ∀ name condvar, (system.channels name).closed = false →
      ((system.channels name).waiting condvar).Nonempty →
        (system.channels name).offers condvar + ((system.channels name).waiting condvar).card +
            ((before.notifiesOne name condvar).toNat + (before.sleeps name condvar).toNat) ≤
          (config.shared.channels name).offers condvar +
              ((config.shared.channels name).waiting condvar).card +
            ((phase.notifiesOne name condvar).toNat + (phase.sleeps name condvar).toNat)) :
    Wakeful (config.move agent system phase) where
  asleep := by
    intro name condvar other isWaiting
    rw [phase_move]
    split_ifs with same
    · exact asleep name condvar (same ▸ isWaiting)
    · exact wakeful.asleep name condvar other (shrinks name condvar isWaiting)
  bounds := by
    intro name isNonempty
    rw [shared_move, capacity]
    exact wakeful.bounds name (isNonempty.mono (shrinks name .notFull))
  closing := by
    intro name condvar isClosed isNonempty
    apply (closers name condvar isClosed isNonempty).elim
    · intro notifies
      exact ⟨agent, by rw [phase_move_self, notifies]⟩
    · intro wasClosed
      obtain ⟨closer, notifies⟩ :=
        wakeful.closing name condvar wasClosed.1 (isNonempty.mono (shrinks name condvar))
      refine ⟨closer, ?_⟩
      rw [phase_move_of_ne config _, notifies]
      intro same
      rw [same, stands, wasClosed.2] at notifies
      cases notifies
  enough := by
    intro name condvar isOpen isNonempty
    have was := wakeful.enough name condvar (staysClosed name isOpen)
      (isNonempty.mono (shrinks name condvar))
    have change := enough name condvar isOpen isNonempty
    have notifiers := count_move config agent system phase (Phase.notifiesOne name condvar)
    have sleepers := count_move config agent system phase (Phase.sleeps name condvar)
    rw [stands] at notifiers sleepers
    rw [shared_move]
    omega

theorem Wakeful.rests (wakeful : Wakeful config) (stands : config.phase agent = before)
    (channels : system.channels = config.shared.channels)
    (quiet : ∀ name condvar, before.notifiesOne name condvar = false ∧
      before.notifiesAll name condvar = false)
    (slept : ∀ name condvar, before.sleeps name condvar = true →
      (config.shared.channels name).closed = true ∧
        agent ∉ (config.shared.channels name).waiting condvar) :
    Wakeful (config.move agent system phase) := by
  have awake := wakeful.awake stands fun name condvar asleep => (slept name condvar asleep).2
  apply wakeful.kept stands
  · exact fun name => by rw [channels]
  · exact fun name => by rw [channels]; exact id
  · exact fun name condvar => by rw [channels]
  · intro name condvar isWaiting
    exact absurd (channels ▸ isWaiting) (awake name condvar)
  · intro name condvar isClosed _
    exact Or.inr ⟨channels ▸ isClosed, (quiet name condvar).2⟩
  · intro name condvar isOpen _
    rw [channels] at isOpen ⊢
    have notSlept : before.sleeps name condvar = false := by
      apply Bool.eq_false_iff.mpr
      intro asleep
      rw [(slept name condvar asleep).1] at isOpen
      cases isOpen
    rw [(quiet name condvar).1, notSlept]
    exact Nat.le_add_right _ _

theorem Wakeful.waits {name : Name} {condvar : Condvar} (wakeful : Wakeful config)
    (stands : config.phase agent = before)
    (isOpen : (config.shared.channels name).closed = false)
    (offersNone : (config.shared.channels name).offers condvar = 0)
    (isBounded : condvar = .notFull → 0 < (config.shared.channels name).capacity)
    (quiet : ∀ other otherCondvar, before.notifiesOne other otherCondvar = false ∧
      before.notifiesAll other otherCondvar = false)
    (slept : ∀ other otherCondvar, before.sleeps other otherCondvar = true →
      (other = name ∧ otherCondvar = condvar) ∧
        agent ∉ (config.shared.channels other).waiting otherCondvar)
    (sleeps : phase.sleeps name condvar = true) :
    Wakeful (config.move agent
      (config.shared.update name ((config.shared.channels name).sleep condvar agent)) phase) := by
  have awake := wakeful.awake stands fun other otherCondvar asleep =>
    (slept other otherCondvar asleep).2
  have waiting := waiting_setWaiting config.shared name condvar
    (insert agent ((config.shared.channels name).waiting condvar))
  have asleep : ∀ other otherCondvar, ∀ who ∈ ((config.shared.update name
      ((config.shared.channels name).sleep condvar agent)).channels other).waiting otherCondvar,
      ((config.move agent (config.shared.update name
        ((config.shared.channels name).sleep condvar agent)) phase).phase who).sleeps other
          otherCondvar = true := by
    intro other otherCondvar who isWaiting
    rw [Channel.sleep, waiting] at isWaiting
    rw [phase_move]
    split_ifs at isWaiting with here
    · rw [here.1, here.2]
      split_ifs with same
      · exact sleeps
      · exact wakeful.asleep _ _ _ (Finset.mem_of_mem_insert_of_ne isWaiting same)
    · rw [if_neg fun same : who = agent => awake other otherCondvar (same ▸ isWaiting)]
      exact wakeful.asleep _ _ _ isWaiting
  constructor
  · exact asleep
  · intro other isNonempty
    rw [shared_move, Channel.sleep, waiting] at isNonempty
    rw [shared_move, Channel.sleep, (unchanged_setWaiting _ _ _ _ _).2.1]
    split_ifs at isNonempty with here
    · exact here.1 ▸ isBounded here.2.symm
    · exact wakeful.bounds other isNonempty
  · intro other otherCondvar isClosed isNonempty
    rw [shared_move, Channel.sleep, (unchanged_setWaiting _ _ _ _ _).2.2] at isClosed
    rw [shared_move, Channel.sleep, waiting] at isNonempty
    split_ifs at isNonempty with here
    · rw [here.1, isOpen] at isClosed
      cases isClosed
    · obtain ⟨closer, notifies⟩ := wakeful.closing other otherCondvar isClosed isNonempty
      refine ⟨closer, ?_⟩
      rw [phase_move_of_ne config _, notifies]
      intro same
      rw [same, stands, (quiet other otherCondvar).2] at notifies
      cases notifies
  · intro other otherCondvar stillOpen isNonempty
    by_cases here : other = name ∧ otherCondvar = condvar
    · have everyone := Finset.card_le_card fun who isWaiting =>
        Finset.mem_filter.mpr ⟨Finset.mem_univ who, asleep other otherCondvar who isWaiting⟩
      rw [shared_move, Channel.sleep, offers_setWaiting, here.1, here.2, offersNone]
      rw [here.1, here.2] at everyone
      rw [count, count]
      exact (Nat.zero_add _).trans_le (everyone.trans (Nat.le_add_left _ _))
    · rw [shared_move, Channel.sleep, (unchanged_setWaiting _ _ _ _ _).2.2] at stillOpen
      rw [shared_move, Channel.sleep, waiting, if_neg here] at isNonempty
      rw [shared_move, Channel.sleep, waiting, if_neg here, offers_setWaiting]
      have was := wakeful.enough other otherCondvar stillOpen isNonempty
      have notifiers := count_move config agent (config.shared.update name
        ((config.shared.channels name).sleep condvar agent)) phase
          (Phase.notifiesOne other otherCondvar)
      have sleepers := count_move config agent (config.shared.update name
        ((config.shared.channels name).sleep condvar agent)) phase
          (Phase.sleeps other otherCondvar)
      have notSlept : before.sleeps other otherCondvar = false :=
        Bool.eq_false_iff.mpr fun slept' => here (slept other otherCondvar slept').1
      rw [stands, (quiet other otherCondvar).1, Bool.toNat_false] at notifiers
      rw [stands, notSlept, Bool.toNat_false] at sleepers
      rw [Channel.sleep] at notifiers sleepers
      omega

/-- A step that puts in a value or takes one out. -/
theorem Wakeful.offers {name : Name} {channel : Channel Agent Value} (wakeful : Wakeful config)
    (stands : config.phase agent = before)
    (channels : system.channels = (config.shared.update name channel).channels)
    (capacity : channel.capacity = (config.shared.channels name).capacity)
    (closed : channel.closed = (config.shared.channels name).closed)
    (waiting : channel.waiting = (config.shared.channels name).waiting)
    (quiet : ∀ other condvar, before.notifiesOne other condvar = false ∧
      before.notifiesAll other condvar = false)
    (slept : ∀ other condvar, before.sleeps other condvar = true → other = name ∧
      agent ∉ (config.shared.channels other).waiting condvar)
    (enough : ∀ condvar, (condvar = .notFull → 0 < (config.shared.channels name).capacity) →
      channel.offers condvar + (before.sleeps name condvar).toNat ≤
        (config.shared.channels name).offers condvar + (phase.notifiesOne name condvar).toNat) :
    Wakeful (config.move agent system phase) := by
  have awake := wakeful.awake stands fun other condvar asleep => (slept other condvar asleep).2
  have sameWaiting : ∀ other, (system.channels other).waiting =
      (config.shared.channels other).waiting := by
    intro other
    rw [channels]
    exact kept_update Channel.waiting waiting other
  have sameClosed : ∀ other, (system.channels other).closed =
      (config.shared.channels other).closed := by
    intro other
    rw [channels]
    exact kept_update Channel.closed closed other
  apply wakeful.kept stands
  · intro other
    rw [channels]
    exact kept_update Channel.capacity capacity other
  · exact fun other isOpen => sameClosed other ▸ isOpen
  · exact fun other condvar => by rw [sameWaiting]
  · intro other condvar isWaiting
    exact absurd (sameWaiting other ▸ isWaiting) (awake other condvar)
  · intro other condvar isClosed _
    exact Or.inr ⟨sameClosed other ▸ isClosed, (quiet other condvar).2⟩
  · intro other condvar _ isNonempty
    rw [sameWaiting] at isNonempty ⊢
    rw [(quiet other condvar).1, channels, channels_update, Bool.toNat_false]
    split_ifs with here
    · rw [here] at isNonempty ⊢
      have isEnough := enough condvar fun isFull => wakeful.bounds name (isFull ▸ isNonempty)
      omega
    · have notSlept : before.sleeps other condvar = false :=
        Bool.eq_false_iff.mpr fun asleep => here (slept other condvar asleep).1
      rw [notSlept, Bool.toNat_false]
      omega

theorem Wakeful.wakes {name : Name} {condvar : Condvar} {agents : Finset Agent}
    (wakeful : Wakeful config) (stands : config.phase agent = before)
    (channels : system.channels =
      (config.shared.update name
        ((config.shared.channels name).setWaiting condvar agents)).channels)
    (shrinks : agents ⊆ (config.shared.channels name).waiting condvar)
    (slept : ∀ other otherCondvar, phase.sleeps other otherCondvar =
      before.sleeps other otherCondvar)
    (closers : ∀ other otherCondvar, before.notifiesAll other otherCondvar = true →
      phase.notifiesAll other otherCondvar = true ∨
        (other = name ∧ otherCondvar = condvar) ∧ agents = ∅)
    (notifiers : ∀ other otherCondvar, before.notifiesOne other otherCondvar = true →
      phase.notifiesOne other otherCondvar = true ∨
        (other = name ∧ otherCondvar = condvar) ∧ (agents.Nonempty →
          agents.card < ((config.shared.channels name).waiting condvar).card)) :
    Wakeful (config.move agent system phase) := by
  have waiting := waiting_setWaiting config.shared name condvar agents
  have unchanged := unchanged_setWaiting config.shared name condvar agents
  have allShrink : ∀ other otherCondvar, (system.channels other).waiting otherCondvar ⊆
      (config.shared.channels other).waiting otherCondvar := by
    intro other otherCondvar
    rw [channels, waiting]
    split_ifs with here
    · exact here.1 ▸ here.2 ▸ shrinks
    · exact subset_rfl
  apply wakeful.kept stands
  · exact fun other => by rw [channels, (unchanged other).2.1]
  · exact fun other isOpen => by rwa [channels, (unchanged other).2.2] at isOpen
  · exact allShrink
  · intro other otherCondvar isWaiting
    rw [slept, ← stands]
    exact wakeful.asleep other otherCondvar agent (allShrink other otherCondvar isWaiting)
  · intro other otherCondvar isClosed isNonempty
    rw [channels, (unchanged other).2.2] at isClosed
    cases wasCloser : before.notifiesAll other otherCondvar with
    | false => exact Or.inr ⟨isClosed, rfl⟩
    | true =>
        refine Or.inl ((closers other otherCondvar wasCloser).resolve_right fun cleared => ?_)
        rw [channels, waiting, if_pos cleared.1, cleared.2] at isNonempty
        exact Finset.not_nonempty_empty isNonempty
  · intro other otherCondvar _ isNonempty
    rw [slept, channels, offers_setWaiting, waiting]
    rw [channels, waiting] at isNonempty
    have fewer : (if other = name ∧ otherCondvar = condvar then agents
        else (config.shared.channels other).waiting otherCondvar).card ≤
          ((config.shared.channels other).waiting otherCondvar).card := by
      rw [← waiting, ← channels]
      exact Finset.card_le_card (allShrink other otherCondvar)
    cases wasNotifier : before.notifiesOne other otherCondvar with
    | false =>
        rw [Bool.toNat_false]
        omega
    | true =>
        apply (notifiers other otherCondvar wasNotifier).elim
        · intro notifies
          rw [notifies]
          omega
        · intro woken
          rw [if_pos woken.1] at isNonempty ⊢
          have isFewer := woken.2 isNonempty
          rw [Bool.toNat_true, woken.1.1, woken.1.2]
          omega

theorem Wakeful.closes {name : Name} (wakeful : Wakeful config)
    (stands : config.phase agent = .closing name)
    (channels : system.channels =
      (config.shared.update name (config.shared.channels name).close).channels) :
    Wakeful (config.move agent system (.closedEmpty name)) := by
  have awake := wakeful.awake stands fun other condvar asleep => Bool.noConfusion asleep
  have sameWaiting : ∀ other, (system.channels other).waiting =
      (config.shared.channels other).waiting := by
    intro other
    have kept : (config.shared.channels name).close.waiting =
        (config.shared.channels name).waiting := rfl
    rw [channels]
    exact kept_update Channel.waiting kept other
  apply wakeful.kept stands
  · intro other
    have kept : (config.shared.channels name).close.capacity =
        (config.shared.channels name).capacity := rfl
    rw [channels]
    exact kept_update Channel.capacity kept other
  · intro other isOpen
    rw [channels, channels_update] at isOpen
    split_ifs at isOpen with here
    · cases isOpen
    · exact isOpen
  · exact fun other condvar => by rw [sameWaiting]
  · intro other condvar isWaiting
    exact absurd (sameWaiting other ▸ isWaiting) (awake other condvar)
  · intro other condvar isClosed _
    rw [channels, channels_update] at isClosed
    split_ifs at isClosed with here
    · exact Or.inl (decide_eq_true here.symm)
    · exact Or.inr ⟨isClosed, rfl⟩
  · intro other condvar isOpen _
    rw [channels, channels_update] at isOpen
    split_ifs at isOpen with here
    · cases isOpen
    · rw [sameWaiting, channels, channels_update, if_neg here]
      exact Nat.le_add_right _ _

omit [Fintype Agent] in
theorem NotifiesOne.subset {agents woken : Finset Agent} (notifies : NotifiesOne agents woken) :
    woken ⊆ agents := by
  cases notifies with
  | nobody => exact subset_rfl
  | somebody => exact Finset.erase_subset _ _

omit [Fintype Agent] in
theorem NotifiesOne.card_lt {agents woken : Finset Agent} (notifies : NotifiesOne agents woken)
    (isNonempty : woken.Nonempty) : woken.card < agents.card := by
  cases notifies with
  | nobody => exact absurd isNonempty Finset.not_nonempty_empty
  | somebody isIn => exact Finset.card_erase_lt_of_mem isIn

omit [Fintype Agent] [DecidableEq Name] [DecidableEq Agent] in
/-- A value more to receive, and a place less to send. -/
theorem offers_push {channel : Channel Agent Value} (value : Value)
    (hasRoom : channel.isFull = false) (condvar : Condvar)
    (isBounded : condvar = .notFull → 0 < channel.capacity) :
    (channel.push value).offers condvar + (condvar = .notFull : Bool).toNat ≤
      channel.offers condvar + (condvar = .notEmpty : Bool).toNat := by
  have room := room_of_not_full hasRoom
  cases condvar with
  | notEmpty =>
      simp only [Channel.offers, Channel.push, List.length_append, List.length_singleton]
      rfl
  | notFull =>
      have positive := isBounded rfl
      have fits := room.resolve_left positive.ne'
      simp only [Channel.offers, Channel.push, List.length_append, List.length_singleton]
      change channel.capacity - (channel.buffer.length + 1) + 1 ≤ _ + 0
      omega

omit [Fintype Agent] [DecidableEq Name] [DecidableEq Agent] in
/-- A value less to receive, and a place more to send. -/
theorem offers_popTo {channel : Channel Agent Value} {value : Value} {rest : List Value}
    (starts : channel.buffer = value :: rest) (condvar : Condvar) :
    (channel.popTo rest).offers condvar + (condvar = .notEmpty : Bool).toNat ≤
      channel.offers condvar + (condvar = .notFull : Bool).toNat := by
  cases condvar with
  | notEmpty =>
      simp only [Channel.offers, Channel.popTo, starts, List.length_cons]
      rfl
  | notFull =>
      simp only [Channel.offers, Channel.popTo, starts, List.length_cons]
      change _ + 0 ≤ channel.capacity - (rest.length + 1) + 1
      omega

theorem Wakeful.pops {name : Name} {value : Value} {rest : List Value} {index : Option Nat}
    (wakeful : Wakeful config) (stands : config.phase agent = before)
    (starts : (config.shared.channels name).buffer = value :: rest)
    (quiet : ∀ other condvar, before.notifiesOne other condvar = false ∧
      before.notifiesAll other condvar = false)
    (slept : ∀ other condvar, before.sleeps other condvar = true → other = name ∧
      condvar = .notEmpty ∧ agent ∉ (config.shared.channels other).waiting condvar) :
    Wakeful (config.move agent ((config.shared.update name
      ((config.shared.channels name).popTo rest)).log (.taken agent name value))
      (.popped name value index)) := by
  refine wakeful.offers stands (channels_log _ _) rfl rfl rfl quiet ?_ ?_
  · exact fun other condvar asleep => ⟨(slept other condvar asleep).1, (slept other condvar asleep).2.2⟩
  · intro condvar _
    have offers := offers_popTo starts condvar
    have sleeps : (before.sleeps name condvar).toNat ≤ (condvar = .notEmpty : Bool).toNat := by
      cases asleep : before.sleeps name condvar with
      | false => exact Nat.zero_le _
      | true =>
          rw [(slept name condvar asleep).2.1]
          exact le_rfl
    simp only [Phase.notifiesOne, decide_true, Bool.true_and]
    omega

theorem Wakeful.step (wakeful : Wakeful config) (stands : config.phase agent = before)
    (acts : Acts agent config.shared before system phase) :
    Wakeful (config.move agent system phase) := by
  cases acts with
  | send | receive | select | skipNull | skipEmpty | selectAgain | selectNothing | close =>
      exact wakeful.rests stands rfl (fun _ _ => ⟨rfl, rfl⟩) fun _ _ asleep =>
        Bool.noConfusion asleep
  | refuseFull may =>
      apply wakeful.rests stands rfl fun _ _ => may.quiet
      exact fun other condvar asleep => Bool.noConfusion (may.sleeps asleep).2.2.1
  | foundEmpty may =>
      apply wakeful.rests stands rfl fun _ _ => may.quiet
      exact fun other condvar asleep => Bool.noConfusion (may.sleeps asleep).2.2.1
  | refuseClosed may isClosed =>
      apply wakeful.rests stands rfl fun _ _ => may.quiet
      exact fun other condvar asleep =>
        ⟨(may.sleeps asleep).1 ▸ isClosed, (may.sleeps asleep).2.2.2⟩
  | foundClosed may _ isClosed =>
      refine wakeful.rests stands (channels_log _ _) (fun _ _ => may.quiet) ?_
      exact fun other condvar asleep =>
        ⟨(may.sleeps asleep).1 ▸ isClosed, (may.sleeps asleep).2.2.2⟩
  | selectClosed =>
      exact wakeful.rests stands rfl (fun _ _ => ⟨rfl, rfl⟩) fun _ _ asleep =>
        Bool.noConfusion asleep
  | @waitFull _ _ _ name value may isOpen isFull =>
      have full : 0 < (config.shared.channels name).capacity ∧
          (config.shared.channels name).capacity ≤ (config.shared.channels name).buffer.length := by
        simpa [Channel.isFull] using isFull
      refine wakeful.waits stands isOpen (Nat.sub_eq_zero_of_le full.2) (fun _ => full.1)
        (fun _ _ => may.quiet) ?_ (by simp [Phase.sleeps])
      exact fun other condvar asleep =>
        ⟨⟨(may.sleeps asleep).1, (may.sleeps asleep).2.1⟩, (may.sleeps asleep).2.2.2⟩
  | @waitEmpty _ _ _ name may isEmpty isOpen =>
      refine wakeful.waits stands isOpen (List.length_eq_zero_iff.mpr isEmpty) Condvar.noConfusion
        (fun _ _ => may.quiet) ?_ (by simp [Phase.sleeps])
      exact fun other condvar asleep =>
        ⟨⟨(may.sleeps asleep).1, (may.sleeps asleep).2.1⟩, (may.sleeps asleep).2.2.2⟩
  | @push _ _ _ name value _ may _ hasRoom =>
      refine wakeful.offers stands (channels_log _ _) rfl rfl rfl (fun _ _ => may.quiet) ?_ ?_
      · exact fun other condvar asleep =>
          ⟨(may.sleeps asleep).1, (may.sleeps asleep).2.2.2⟩
      · intro condvar isBounded
        have offers := offers_push value hasRoom condvar isBounded
        have sleeps : (before.sleeps name condvar).toNat ≤ (condvar = .notFull : Bool).toNat := by
          cases asleep : before.sleeps name condvar with
          | false => exact Nat.zero_le _
          | true =>
              rw [(may.sleeps asleep).2.1]
              exact le_rfl
        simp only [Phase.notifiesOne, decide_true, Bool.true_and]
        omega
  | pop may starts =>
      apply wakeful.pops stands starts fun _ _ => may.quiet
      exact fun other condvar asleep =>
        ⟨(may.sleeps asleep).1, (may.sleeps asleep).2.1, (may.sleeps asleep).2.2.2⟩
  | selectPop _ starts =>
      exact wakeful.pops stands starts (fun _ _ => ⟨rfl, rfl⟩) fun _ _ asleep =>
        Bool.noConfusion asleep
  | notifyPushed notifies =>
      refine wakeful.wakes stands rfl notifies.subset (fun _ _ => rfl)
        (fun _ _ closes => Bool.noConfusion closes) ?_
      intro other condvar wasNotifier
      simp only [Phase.notifiesOne, Bool.and_eq_true, decide_eq_true_eq] at wasNotifier
      exact Or.inr ⟨⟨wasNotifier.1.symm, wasNotifier.2⟩, notifies.card_lt⟩
  | notifyPopped notifies =>
      refine wakeful.wakes stands (channels_log _ _) notifies.subset (fun _ _ => rfl)
        (fun _ _ closes => Bool.noConfusion closes) ?_
      intro other condvar wasNotifier
      simp only [Phase.notifiesOne, Bool.and_eq_true, decide_eq_true_eq] at wasNotifier
      exact Or.inr ⟨⟨wasNotifier.1.symm, wasNotifier.2⟩, notifies.card_lt⟩
  | setClosed => exact wakeful.closes stands (channels_log _ _)
  | notifyAllEmpty =>
      refine wakeful.wakes stands rfl (Finset.empty_subset _) (fun _ _ => rfl) ?_
        (fun _ _ notifies => Bool.noConfusion notifies)
      intro other condvar wasCloser
      simp only [Phase.notifiesAll, decide_eq_true_eq] at wasCloser
      cases condvar with
      | notEmpty => exact Or.inr ⟨⟨wasCloser.symm, rfl⟩, rfl⟩
      | notFull => exact Or.inl (by simp [Phase.notifiesAll, wasCloser])
  | notifyAllFull =>
      refine wakeful.wakes stands rfl (Finset.empty_subset _) (fun _ _ => rfl) ?_
        (fun _ _ notifies => Bool.noConfusion notifies)
      intro other condvar wasCloser
      simp only [Phase.notifiesAll, Bool.and_eq_true, decide_eq_true_eq] at wasCloser
      exact Or.inr ⟨⟨wasCloser.1.symm, wasCloser.2⟩, rfl⟩
  | wakeSpuriously =>
      exact wakeful.wakes stands rfl (Finset.erase_subset _ _) (fun _ _ => rfl)
        (fun _ _ closes => Or.inl closes) (fun _ _ notifies => Or.inl notifies)

omit [Fintype Agent] [DecidableEq Agent] in
theorem not_sleeps_of_notifiesOne {name : Name} {condvar : Condvar}
    (notifies : phase.notifiesOne name condvar = true) : phase.sleeps name condvar = false := by
  cases phase <;> first | rfl | cases notifies

theorem Wakeful.offers_le (wakeful : Wakeful config) (name : Name) (condvar : Condvar)
    (isOpen : (config.shared.channels name).closed = false)
    (isNonempty : ((config.shared.channels name).waiting condvar).Nonempty) :
    (config.shared.channels name).offers condvar ≤
      (Finset.univ.filter fun agent => Awaited config name condvar agent).card := by
  have enough := wakeful.enough name condvar isOpen isNonempty
  let sleepers := Finset.univ.filter fun agent => (config.phase agent).sleeps name condvar = true
  let notifiers := Finset.univ.filter fun agent =>
    (config.phase agent).notifiesOne name condvar = true
  have waiting : (config.shared.channels name).waiting condvar ⊆ sleepers := fun agent isWaiting =>
    Finset.mem_filter.mpr ⟨Finset.mem_univ agent, wakeful.asleep name condvar agent isWaiting⟩
  have apart : Disjoint notifiers (sleepers \ (config.shared.channels name).waiting condvar) := by
    apply Finset.disjoint_left.mpr
    intro agent isNotifier isSleeper
    have sleeps := (Finset.mem_filter.mp (Finset.mem_sdiff.mp isSleeper).1).2
    rw [not_sleeps_of_notifiesOne (Finset.mem_filter.mp isNotifier).2] at sleeps
    cases sleeps
  have awaited : notifiers ∪ (sleepers \ (config.shared.channels name).waiting condvar) ⊆
      Finset.univ.filter fun agent => Awaited config name condvar agent := by
    intro agent isIn
    refine Finset.mem_filter.mpr ⟨Finset.mem_univ agent, ?_⟩
    apply (Finset.mem_union.mp isIn).elim
    · exact fun isNotifier => Or.inl (Finset.mem_filter.mp isNotifier).2
    · intro isSleeper
      have both := Finset.mem_sdiff.mp isSleeper
      exact Or.inr (Or.inr ⟨(Finset.mem_filter.mp both.1).2, both.2⟩)
  have fewer := Finset.card_le_card awaited
  rw [Finset.card_union_of_disjoint apart, Finset.card_sdiff_of_subset waiting] at fewer
  have inside := Finset.card_le_card waiting
  change _ ≤ notifiers.card + sleepers.card at enough
  omega

theorem Wakeful.awaits (wakeful : Wakeful config) {name : Name} {condvar : Condvar}
    (isWaiting : agent ∈ (config.shared.channels name).waiting condvar)
    (isReady : 0 < (config.shared.channels name).offers condvar ∨
      (config.shared.channels name).closed = true) :
    ∃ waker, Awaited config name condvar waker := by
  cases isClosed : (config.shared.channels name).closed with
  | true =>
      obtain ⟨closer, notifies⟩ := wakeful.closing name condvar isClosed ⟨agent, isWaiting⟩
      exact ⟨closer, Or.inr (Or.inl notifies)⟩
  | false =>
      have offered := isReady.resolve_right (Bool.eq_false_iff.mp isClosed)
      have awaited := offered.trans_le (wakeful.offers_le name condvar isClosed ⟨agent, isWaiting⟩)
      obtain ⟨waker, isIn⟩ := Finset.card_pos.mp awaited
      exact ⟨waker, (Finset.mem_filter.mp isIn).2⟩

theorem wakeful_of_reaches {capacities : Name → Int}
    {allowed : Config Agent (System Agent Name Value) (Phase Name Value) → Agent → Prop}
    (reaches : Reaches Acts allowed (initial capacities) config) : Wakeful config := by
  apply reaches.invariant
  · exact wakeful_initial capacities
  · intro before agent system phase wakeful _ acts
    exact wakeful.step rfl acts

end Rayzor.Channels
