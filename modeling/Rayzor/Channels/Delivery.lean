import Rayzor.Channels.Channel

/-!
Contract: what channels deliver.
-/

namespace Rayzor.Channels

open Library Library.Interleaving

variable {Agent Name Value : Type} [DecidableEq Agent] [DecidableEq Name]

omit [DecidableEq Agent] in
@[simp] theorem channels_update (system : System Agent Name Value) (name other : Name)
    (channel : Channel Agent Value) : (system.update name channel).channels other =
      if other = name then channel else system.channels other := by
  split_ifs with same
  · rw [same]
    exact Function.update_self name channel system.channels
  · exact Function.update_of_ne same channel system.channels

omit [DecidableEq Agent] in
@[simp] theorem trace_update (system : System Agent Name Value) (name : Name)
    (channel : Channel Agent Value) : (system.update name channel).trace = system.trace := rfl

omit [DecidableEq Agent] [DecidableEq Name] in
@[simp] theorem channels_log (system : System Agent Name Value)
    (event : Mailboxes.Event Agent Name Value) : (system.log event).channels = system.channels := rfl

omit [DecidableEq Agent] in
theorem unchanged_setWaiting (system : System Agent Name Value) (name : Name) (condvar : Condvar)
    (agents : Finset Agent) (other : Name) :
    ((system.update name ((system.channels name).setWaiting condvar agents)).channels
        other).buffer = (system.channels other).buffer ∧
      ((system.update name ((system.channels name).setWaiting condvar agents)).channels
        other).capacity = (system.channels other).capacity ∧
      ((system.update name ((system.channels name).setWaiting condvar agents)).channels
        other).closed = (system.channels other).closed := by
  rw [channels_update]
  by_cases same : other = name
  · rw [if_pos same, same]
    exact ⟨rfl, rfl, rfl⟩
  · rw [if_neg same]
    exact ⟨rfl, rfl, rfl⟩

variable {config : Config Agent (System Agent Name Value) (Phase Name Value)} {agent : Agent}
  {system : System Agent Name Value} {before phase : Phase Name Value}

omit [DecidableEq Agent] [DecidableEq Name] in
theorem MaySend.inHand {name : Name} {value : Value} {waits : Bool}
    (may : MaySend agent system before name value waits) : before.inHand = none := by
  cases may <;> rfl

omit [DecidableEq Agent] [DecidableEq Name] in
theorem MayReceive.inHand {name : Name} {waits : Bool}
    (may : MayReceive agent system before name waits) : before.inHand = none := by
  cases may <;> rfl

omit [DecidableEq Name] in
theorem hand_move : (boxes (config.move agent system phase)).hand =
    Function.update (boxes config).hand agent phase.inHand := by
  funext other
  rw [boxes, Config.move]
  by_cases same : other = agent
  · rw [same, Function.update_self]
    exact congrArg Phase.inHand (Function.update_self agent phase config.phase)
  · rw [Function.update_of_ne same]
    exact congrArg Phase.inHand (Function.update_of_ne same phase config.phase)

omit [DecidableEq Name] in
/-- A step that leaves what is in transit. -/
theorem boxes_quiet (hand : phase.inHand = (config.phase agent).inHand)
    (trace : system.trace = config.shared.trace)
    (unchanged : ∀ name, (system.channels name).buffer = (config.shared.channels name).buffer ∧
      (system.channels name).capacity = (config.shared.channels name).capacity ∧
      (system.channels name).closed = (config.shared.channels name).closed) :
    boxes (config.move agent system phase) = boxes config := by
  have sameHand : (boxes (config.move agent system phase)).hand = (boxes config).hand := by
    rw [hand_move, hand]
    exact Function.update_eq_self agent _
  rw [boxes, boxes, Mailboxes.mk.injEq]
  refine ⟨?_, ?_, ?_, sameHand, trace⟩
  · exact funext fun name => (unchanged name).1
  · exact funext fun name => (unchanged name).2.1
  · exact funext fun name => (unchanged name).2.2

theorem boxes_setWaiting (hand : phase.inHand = (config.phase agent).inHand) (name : Name)
    (condvar : Condvar) (agents : Finset Agent) :
    boxes (config.move agent (config.shared.update name
      ((config.shared.channels name).setWaiting condvar agents)) phase) = boxes config :=
  boxes_quiet hand (trace_update _ _ _)
    (unchanged_setWaiting config.shared name condvar agents)

/-- What is in transit after a step that changes one channel and is recorded. -/
theorem boxes_logged {name : Name} {channel : Channel Agent Value}
    {event : Mailboxes.Event Agent Name Value}
    (capacity : channel.capacity = (config.shared.channels name).capacity) :
    boxes (config.move agent ((config.shared.update name channel).log event) phase) =
      { buffer := Function.update (boxes config).buffer name channel.buffer
        capacity := (boxes config).capacity
        closed := Function.update (boxes config).closed name channel.closed
        hand := Function.update (boxes config).hand agent phase.inHand
        trace := (boxes config).trace ++ [event] } := by
  have hand : (boxes (config.move agent ((config.shared.update name channel).log event)
      phase)).hand = Function.update (boxes config).hand agent phase.inHand := hand_move
  rw [← hand, boxes, Mailboxes.mk.injEq]
  refine ⟨?_, ?_, ?_, rfl, rfl⟩ <;> funext other <;> rw [shared_move, channels_log, channels_update]
  · split_ifs with same
    · rw [same, Function.update_self]
    · rw [Function.update_of_ne same]
      rfl
  · split_ifs with same
    · rw [same]
      exact capacity
    · rfl
  · split_ifs with same
    · rw [same, Function.update_self]
    · rw [Function.update_of_ne same]
      rfl

theorem boxes_pop {name : Name} {value : Value} {rest : List Value} {index : Option Nat} :
    boxes (config.move agent ((config.shared.update name
      ((config.shared.channels name).popTo rest)).log (.taken agent name value))
      (.popped name value index)) = (boxes config).take agent name value rest := by
  have capacity : ((config.shared.channels name).popTo rest).capacity =
      (config.shared.channels name).capacity := rfl
  rw [boxes_logged capacity, Mailboxes.take, Mailboxes.mk.injEq]
  exact ⟨rfl, rfl, Function.update_eq_self name (boxes config).closed, rfl, rfl⟩

theorem boxes_push {name : Name} {value : Value} (isFree : (boxes config).hand agent = none) :
    boxes (config.move agent ((config.shared.update name
      ((config.shared.channels name).push value)).log (.accepted agent name value))
      (.pushed name)) = (boxes config).accept agent name value := by
  have capacity : ((config.shared.channels name).push value).capacity =
      (config.shared.channels name).capacity := rfl
  have hand : Function.update (boxes config).hand agent none = (boxes config).hand := by
    rw [← isFree]
    exact Function.update_eq_self agent _
  rw [boxes_logged capacity, Mailboxes.accept, Mailboxes.mk.injEq]
  exact ⟨rfl, rfl, Function.update_eq_self name (boxes config).closed, hand, rfl⟩

theorem boxes_return {name : Name} {value : Value} {agents : Finset Agent} :
    boxes (config.move agent ((config.shared.update name
      ((config.shared.channels name).setWaiting .notFull agents)).log
        (.returned agent name value)) .resting) = (boxes config).giveBack agent name value := by
  have capacity : ((config.shared.channels name).setWaiting .notFull agents).capacity =
      (config.shared.channels name).capacity := rfl
  rw [boxes_logged capacity, Mailboxes.giveBack, Mailboxes.mk.injEq]
  exact ⟨Function.update_eq_self name (boxes config).buffer, rfl,
    Function.update_eq_self name (boxes config).closed, rfl, rfl⟩

/-- What is in transit after a close. -/
theorem boxes_close {name : Name} (isFree : (boxes config).hand agent = none) :
    boxes (config.move agent ((config.shared.update name (config.shared.channels name).close).log
      (.closed agent name)) (.closedEmpty name)) = (boxes config).close agent name := by
  have capacity : (config.shared.channels name).close.capacity =
      (config.shared.channels name).capacity := rfl
  have hand : Function.update (boxes config).hand agent none = (boxes config).hand := by
    rw [← isFree]
    exact Function.update_eq_self agent _
  rw [boxes_logged capacity, Mailboxes.close, Mailboxes.mk.injEq]
  exact ⟨Function.update_eq_self name (boxes config).buffer, rfl, rfl, hand, rfl⟩

omit [DecidableEq Name] in
/-- What is in transit after a receiver has been told. -/
theorem boxes_tell {name : Name} (isFree : (config.phase agent).inHand = none) :
    boxes (config.move agent (config.shared.log (.toldClosed agent name)) .resting) =
      (boxes config).tell agent name := by
  have hand : (boxes (config.move agent (config.shared.log (.toldClosed agent name))
      .resting)).hand = (boxes config).hand := by
    rw [hand_move]
    exact (congrArg _ isFree.symm).trans (Function.update_eq_self agent (boxes config).hand)
  rw [boxes, Mailboxes.tell, Mailboxes.mk.injEq]
  exact ⟨rfl, rfl, rfl, hand, rfl⟩

omit [DecidableEq Agent] [DecidableEq Name] in
theorem room_of_not_full {channel : Channel Agent Value} (hasRoom : channel.isFull = false) :
    channel.capacity = 0 ∨ channel.buffer.length < channel.capacity := by
  simp only [Channel.isFull, Bool.and_eq_false_iff, decide_eq_false_iff_not] at hasRoom
  omega

/-- Every step of the channels is a step of their queues, or leaves them. -/
theorem simulates (stands : config.phase agent = before)
    (acts : Acts agent config.shared before system phase) :
    boxes (config.move agent system phase) = boxes config ∨
      Mailboxes.Step (boxes config) (boxes (config.move agent system phase)) := by
  have quiet : phase.inHand = before.inHand → system = config.shared →
      boxes (config.move agent system phase) = boxes config := by
    intro hand same
    rw [same]
    exact boxes_quiet (stands ▸ hand) rfl fun _ => ⟨rfl, rfl, rfl⟩
  have waits : ∀ name condvar agents, phase.inHand = before.inHand →
      boxes (config.move agent (config.shared.update name
        ((config.shared.channels name).setWaiting condvar agents)) phase) = boxes config :=
    fun name condvar agents hand => boxes_setWaiting (stands ▸ hand) name condvar agents
  have free : before.inHand = none → (boxes config).hand agent = none := by
    intro isFree
    rw [← isFree, ← stands]
    rfl
  cases acts with
  | send | receive | select | skipNull | skipEmpty | selectAgain | selectNothing | close =>
      exact Or.inl (quiet rfl rfl)
  | refuseFull may | refuseClosed may => exact Or.inl (quiet may.inHand.symm rfl)
  | foundEmpty may => exact Or.inl (quiet may.inHand.symm rfl)
  | waitFull may => exact Or.inl (waits _ _ _ may.inHand.symm)
  | waitEmpty may => exact Or.inl (waits _ _ _ may.inHand.symm)
  | notifyPushed | notifyAllEmpty | notifyAllFull | wakeSpuriously =>
      exact Or.inl (waits _ _ _ rfl)
  | push may isOpen hasRoom =>
      right
      rw [boxes_push (free may.inHand)]
      exact Mailboxes.Step.accept isOpen (room_of_not_full hasRoom)
  | pop may starts =>
      right
      rw [boxes_pop]
      exact Mailboxes.Step.take (free may.inHand) starts
  | selectPop _ starts =>
      right
      rw [boxes_pop]
      exact Mailboxes.Step.take (free rfl) starts
  | foundClosed may isEmpty isClosed =>
      right
      rw [boxes_tell (stands ▸ may.inHand)]
      exact Mailboxes.Step.tell isClosed isEmpty
  | selectClosed _ isEmpty isClosed =>
      right
      rw [boxes_tell (stands ▸ rfl)]
      exact Mailboxes.Step.tell isClosed isEmpty
  | notifyPopped =>
      right
      rw [boxes_return]
      exact Mailboxes.Step.giveBack (congrArg Phase.inHand stands)
  | setClosed =>
      right
      rw [boxes_close (free rfl)]
      exact Mailboxes.Step.close

/-- The queues of a run have a lawful history. -/
theorem lawful_of_reaches {capacities : Name → Int}
    {allowed : Config Agent (System Agent Name Value) (Phase Name Value) → Agent → Prop}
    (reaches : Reaches Acts allowed (initial capacities) config) : (boxes config).Lawful := by
  apply reaches.invariant
  · exact Mailboxes.lawful_empty fun name =>
      (Channel.init (capacities name) : Channel Agent Value).capacity
  · intro before agent system phase lawful _ acts
    apply (simulates rfl acts).elim
    · exact fun unchanged => unchanged ▸ lawful
    · exact fun step => lawful.step step

end Rayzor.Channels
