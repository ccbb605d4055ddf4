import Rayzor.Library.Interleaving
import Rayzor.Library.Mailboxes

/-!
Contract: runtime channels, and `select` over several of them.

Owns: a channel with its two condition variables; the steps of senders, receivers,
selecting receivers and closers, one mutex section each, with the notification after it a
step of its own; and what a run of them is to guarantee (`Safe`).

Does not own: null channel handles, on which every function returns at once, the
allocation of `SelectResult`, and the pauses between the rounds of `rayzor_select_recv`.
-/

namespace Rayzor.Channels

open Library Library.Interleaving

inductive Condvar where
  | notEmpty
  | notFull
deriving DecidableEq, Repr

/-- `ChannelHandle`, and who sleeps on its condition variables. -/
structure Channel (Agent Value : Type) where
  buffer : List Value
  -- 0 is unbounded
  capacity : Nat
  closed : Bool
  waiting : Condvar → Finset Agent

variable {Agent Name Value : Type} [DecidableEq Agent] [DecidableEq Name]

namespace Channel

def init (capacity : Int) : Channel Agent Value :=
  ⟨[], if capacity ≤ 0 then 0 else capacity.toNat, false, fun _ => ∅⟩

/-- The bound is reached. -/
def isFull (channel : Channel Agent Value) : Bool :=
  0 < channel.capacity && channel.capacity ≤ channel.buffer.length

def push (channel : Channel Agent Value) (value : Value) : Channel Agent Value :=
  { channel with buffer := channel.buffer ++ [value] }

def popTo (channel : Channel Agent Value) (rest : List Value) : Channel Agent Value :=
  { channel with buffer := rest }

def close (channel : Channel Agent Value) : Channel Agent Value :=
  { channel with closed := true }

def setWaiting (channel : Channel Agent Value) (condvar : Condvar) (agents : Finset Agent) :
    Channel Agent Value :=
  { channel with waiting := Function.update channel.waiting condvar agents }

def sleep (channel : Channel Agent Value) (condvar : Condvar) (agent : Agent) :
    Channel Agent Value :=
  channel.setWaiting condvar (insert agent (channel.waiting condvar))

end Channel

/-- The channels of a program, and what has happened on them. -/
structure System (Agent Name Value : Type) where
  channels : Name → Channel Agent Value
  trace : List (Mailboxes.Event Agent Name Value)

namespace System

def update (system : System Agent Name Value) (name : Name) (channel : Channel Agent Value) :
    System Agent Name Value :=
  { system with channels := Function.update system.channels name channel }

def log (system : System Agent Name Value) (event : Mailboxes.Event Agent Name Value) :
    System Agent Name Value :=
  { system with trace := system.trace ++ [event] }

end System

/-- What an agent does next. `waits` tells the blocking function from the one that
tries. -/
inductive Phase (Name Value : Type) where
  | resting
  -- `rayzor_channel_send` and `rayzor_channel_try_send`
  | sending (name : Name) (value : Value) (waits : Bool)
  | asleepFull (name : Name) (value : Value)
  | pushed (name : Name)
  -- `rayzor_channel_receive` and `rayzor_channel_try_receive`
  | receiving (name : Name) (waits : Bool)
  | asleepEmpty (name : Name)
  | popped (name : Name) (value : Value) (index : Option Nat)
  -- `rayzor_select_recv` and `rayzor_select_try_recv`
  | selecting (names : List (Option Name)) (position : Nat) (waits : Bool)
  -- `rayzor_channel_close`
  | closing (name : Name)
  | closedEmpty (name : Name)
  | closedFull (name : Name)

/-- `notify_one`: it wakes one of those who sleep, if any does. -/
inductive NotifiesOne : Finset Agent → Finset Agent → Prop
  | nobody : NotifiesOne ∅ ∅
  | somebody {agents : Finset Agent} {woken : Agent} : woken ∈ agents →
      NotifiesOne agents (agents.erase woken)

/-- Who may take the mutex to send: who has come, or who has been woken. -/
inductive MaySend (agent : Agent) (system : System Agent Name Value) :
    Phase Name Value → Name → Value → Bool → Prop
  | comes {name value waits} : MaySend agent system (.sending name value waits) name value waits
  | wakes {name value} : agent ∉ (system.channels name).waiting .notFull →
      MaySend agent system (.asleepFull name value) name value true

inductive MayReceive (agent : Agent) (system : System Agent Name Value) :
    Phase Name Value → Name → Bool → Prop
  | comes {name waits} : MayReceive agent system (.receiving name waits) name waits
  | wakes {name} : agent ∉ (system.channels name).waiting .notEmpty →
      MayReceive agent system (.asleepEmpty name) name true

def Phase.sleeps (name : Name) (condvar : Condvar) : Phase Name Value → Bool
  | .asleepFull other _ => other = name && condvar = .notFull
  | .asleepEmpty other => other = name && condvar = .notEmpty
  | _ => false

/-- Who is about to wake one of those who sleep on a condition variable. -/
def Phase.notifiesOne (name : Name) (condvar : Condvar) : Phase Name Value → Bool
  | .pushed other => other = name && condvar = .notEmpty
  | .popped other _ _ => other = name && condvar = .notFull
  | _ => false

/-- Who is about to wake all of them. -/
def Phase.notifiesAll (name : Name) (condvar : Condvar) : Phase Name Value → Bool
  | .closedEmpty other => other = name
  | .closedFull other => other = name && condvar = .notFull
  | _ => false

/-- What an agent has taken from a channel, and not yet returned. -/
def Phase.inHand : Phase Name Value → Option (Name × Value)
  | .popped name value _ => some (name, value)
  | _ => none

/-- The steps: one mutex section or one notification each. -/
inductive Acts : Protocol Agent (System Agent Name Value) (Phase Name Value)
  -- `rayzor_channel_send`, `rayzor_channel_try_send`
  | send {agent system} (name : Name) (value : Value) (waits : Bool) :
      Acts agent system .resting system (.sending name value waits)
  | push {agent system before name value waits} : MaySend agent system before name value waits →
      (system.channels name).closed = false → (system.channels name).isFull = false →
      Acts agent system before
        ((system.update name ((system.channels name).push value)).log (.accepted agent name value))
        (.pushed name)
  | waitFull {agent system before name value} : MaySend agent system before name value true →
      (system.channels name).closed = false → (system.channels name).isFull = true →
      Acts agent system before
        (system.update name ((system.channels name).sleep .notFull agent)) (.asleepFull name value)
  | refuseFull {agent system before name value} : MaySend agent system before name value false →
      (system.channels name).closed = false → (system.channels name).isFull = true →
      Acts agent system before system .resting
  | refuseClosed {agent system before name value waits} :
      MaySend agent system before name value waits → (system.channels name).closed = true →
      Acts agent system before system .resting
  | notifyPushed {agent system name agents} :
      NotifiesOne ((system.channels name).waiting .notEmpty) agents →
      Acts agent system (.pushed name)
        (system.update name ((system.channels name).setWaiting .notEmpty agents)) .resting
  -- `rayzor_channel_receive`, `rayzor_channel_try_receive`
  | receive {agent system} (name : Name) (waits : Bool) :
      Acts agent system .resting system (.receiving name waits)
  | pop {agent system before name waits value rest} : MayReceive agent system before name waits →
      (system.channels name).buffer = value :: rest →
      Acts agent system before
        ((system.update name ((system.channels name).popTo rest)).log (.taken agent name value))
        (.popped name value none)
  | waitEmpty {agent system before name} : MayReceive agent system before name true →
      (system.channels name).buffer = [] → (system.channels name).closed = false →
      Acts agent system before
        (system.update name ((system.channels name).sleep .notEmpty agent)) (.asleepEmpty name)
  | foundClosed {agent system before name} : MayReceive agent system before name true →
      (system.channels name).buffer = [] → (system.channels name).closed = true →
      Acts agent system before (system.log (.toldClosed agent name)) .resting
  | foundEmpty {agent system before name} : MayReceive agent system before name false →
      (system.channels name).buffer = [] → Acts agent system before system .resting
  | notifyPopped {agent system name value index agents} :
      NotifiesOne ((system.channels name).waiting .notFull) agents →
      Acts agent system (.popped name value index)
        ((system.update name ((system.channels name).setWaiting .notFull agents)).log
          (.returned agent name value)) .resting
  -- `rayzor_select_recv`, `rayzor_select_try_recv`
  | select {agent system} (names : List (Option Name)) (waits : Bool) :
      Acts agent system .resting system (.selecting names 0 waits)
  | skipNull {agent system names position waits} : names[position]? = some none →
      Acts agent system (.selecting names position waits) system
        (.selecting names (position + 1) waits)
  | selectPop {agent system names position waits name value rest} :
      names[position]? = some (some name) → (system.channels name).buffer = value :: rest →
      Acts agent system (.selecting names position waits)
        ((system.update name ((system.channels name).popTo rest)).log (.taken agent name value))
        (.popped name value (some position))
  | selectClosed {agent system names position name} :
      names[position]? = some (some name) → (system.channels name).buffer = [] →
      (system.channels name).closed = true →
      Acts agent system (.selecting names position true)
        (system.log (.toldClosed agent name)) .resting
  | skipEmpty {agent system names position waits name} :
      names[position]? = some (some name) → (system.channels name).buffer = [] →
      waits = false ∨ (system.channels name).closed = false →
      Acts agent system (.selecting names position waits) system
        (.selecting names (position + 1) waits)
  | selectAgain {agent system names position} : names[position]? = none → names ≠ [] →
      Acts agent system (.selecting names position true) system (.selecting names 0 true)
  | selectNothing {agent system names position waits} : names[position]? = none →
      waits = false ∨ names = [] → Acts agent system (.selecting names position waits) system .resting
  -- `rayzor_channel_close`
  | close {agent system} (name : Name) : Acts agent system .resting system (.closing name)
  | setClosed {agent system name} :
      Acts agent system (.closing name)
        ((system.update name (system.channels name).close).log (.closed agent name))
        (.closedEmpty name)
  | notifyAllEmpty {agent system name} :
      Acts agent system (.closedEmpty name)
        (system.update name ((system.channels name).setWaiting .notEmpty ∅)) (.closedFull name)
  | notifyAllFull {agent system name} :
      Acts agent system (.closedFull name)
        (system.update name ((system.channels name).setWaiting .notFull ∅)) .resting
  -- a condition variable may wake a sleeper without being notified
  | wakeSpuriously {agent system phase name condvar} : phase.sleeps name condvar = true →
      Acts agent system phase
        (system.update name ((system.channels name).setWaiting condvar
          (((system.channels name).waiting condvar).erase agent))) phase

/-- Channels of these capacities, and nobody at work. -/
def initial (capacities : Name → Int) :
    Config Agent (System Agent Name Value) (Phase Name Value) :=
  ⟨⟨fun name => Channel.init (capacities name), []⟩, fun _ => .resting⟩

/-- What there is for those who sleep on a condition variable: values to receive, or room
to send. -/
def Channel.offers (channel : Channel Agent Value) : Condvar → Nat
  | .notEmpty => channel.buffer.length
  | .notFull => channel.capacity - channel.buffer.length

/-- A wake-up that is still to come: a notification, or a sleeper that is awake and has
yet to look. -/
def Awaited (config : Config Agent (System Agent Name Value) (Phase Name Value)) (name : Name)
    (condvar : Condvar) (agent : Agent) : Prop :=
  (config.phase agent).notifiesOne name condvar = true ∨
    (config.phase agent).notifiesAll name condvar = true ∨
    (config.phase agent).sleeps name condvar = true ∧
      agent ∉ (config.shared.channels name).waiting condvar

instance (config : Config Agent (System Agent Name Value) (Phase Name Value)) (name : Name)
    (condvar : Condvar) (agent : Agent) : Decidable (Awaited config name condvar agent) :=
  inferInstanceAs (Decidable (_ ∨ _ ∨ _ ∧ _))

def boxes (config : Config Agent (System Agent Name Value) (Phase Name Value)) :
    Mailboxes Agent Name Value where
  buffer := fun name => (config.shared.channels name).buffer
  capacity := fun name => (config.shared.channels name).capacity
  closed := fun name => (config.shared.channels name).closed
  hand := fun agent => (config.phase agent).inHand
  trace := config.shared.trace

structure Safe [Fintype Agent]
    (config : Config Agent (System Agent Name Value) (Phase Name Value)) : Prop where
  delivery : (boxes config).Lawful
  /-- A sender that sleeps beside room, or a closed channel, is to be woken. -/
  sender : ∀ name, ∀ agent ∈ (config.shared.channels name).waiting .notFull,
    (config.shared.channels name).isFull = false ∨ (config.shared.channels name).closed = true →
      ∃ waker, Awaited config name .notFull waker
  receiver : ∀ name, ∀ agent ∈ (config.shared.channels name).waiting .notEmpty,
    (config.shared.channels name).buffer ≠ [] ∨ (config.shared.channels name).closed = true →
      ∃ waker, Awaited config name .notEmpty waker
  /-- While somebody sleeps, there are as many wake-ups to come as there is to wake for. -/
  wakeups : ∀ name condvar, (config.shared.channels name).closed = false →
    ((config.shared.channels name).waiting condvar).Nonempty →
      (config.shared.channels name).offers condvar ≤
        (Finset.univ.filter fun agent => Awaited config name condvar agent).card

end Rayzor.Channels
