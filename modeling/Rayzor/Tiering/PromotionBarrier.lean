import Rayzor.Library.Interleaving

/-!
Contract: the promotion barrier between executions of compiled code and promoters that
replace it.

Owns: the barrier's words, the atomic steps of executions and of promoters, in the order
in which the functions take them, and what the barrier is to guarantee (`Safe`).

Does not own: what runs inside an execution. The mutex and the queue of
`wait_for_drain` have no part here: its waits are timed, so a sleeper there may always
go on.
-/

namespace Rayzor.Tiering

open Library.Interleaving

inductive PromotionState where
  | idle
  | promotionRequested
  | promotionInProgress
deriving DecidableEq, Repr

/-- The barrier: its atomics, the holder of `wait_mutex`, and who sleeps on
`wait_condvar`. -/
structure PromotionBarrier (Agent : Type) where
  state : PromotionState
  executionCounter : Nat
  waitMutex : Option Agent
  waiting : Set Agent

/-- What an agent does next. An agent is a thread, or one of the nested executions of a
thread. `waits` tells `wait_and_enter_execution` from `enter_execution`. -/
inductive Phase where
  | resting
  -- `enter_execution`
  | starting (waits : Bool)
  | admitted (waits : Bool)
  | counted (waits : Bool)
  | refused (waits : Bool)
  | uncounted (waits : Bool)
  -- the slow path of `wait_and_enter_execution`
  | locking
  | locked
  | checked
  | asleep
  | relocked
  -- an execution, and `exit_execution`
  | inside
  | leaving (last : Bool)
  | signalling
  -- `request_promotion` and `wait_for_drain`
  | requesting
  | draining
  | drained
  | undrained
  | timedOut
  | swapping
  -- `complete_promotion` and `cancel_promotion`
  | completing (swapped : Bool)
  | cancelling (swapped : Bool)
  | cancellingSwap (swapped released : Bool)
  | notifying
deriving DecidableEq, Repr

def counterSize : Nat := 2 ^ 64

variable {Agent : Type}

/-- `fetch_add(1)` -/
def increment (barrier : PromotionBarrier Agent) : PromotionBarrier Agent :=
  { barrier with executionCounter := (barrier.executionCounter + 1) % counterSize }

/-- `fetch_sub(1)` -/
def decrement (barrier : PromotionBarrier Agent) : PromotionBarrier Agent :=
  { barrier with
    executionCounter := (barrier.executionCounter + (counterSize - 1)) % counterSize }

@[simp] theorem state_increment (barrier : PromotionBarrier Agent) :
    (increment barrier).state = barrier.state := by
  rw [increment]

@[simp] theorem state_decrement (barrier : PromotionBarrier Agent) :
    (decrement barrier).state = barrier.state := by
  rw [decrement]

@[simp] theorem waiting_increment (barrier : PromotionBarrier Agent) :
    (increment barrier).waiting = barrier.waiting := by
  rw [increment]

@[simp] theorem waiting_decrement (barrier : PromotionBarrier Agent) :
    (decrement barrier).waiting = barrier.waiting := by
  rw [decrement]

theorem executionCounter_increment {barrier : PromotionBarrier Agent}
    (grows : barrier.executionCounter + 1 < counterSize) :
    (increment barrier).executionCounter = barrier.executionCounter + 1 :=
  Nat.mod_eq_of_lt grows

theorem executionCounter_decrement {barrier : PromotionBarrier Agent}
    (isPositive : 0 < barrier.executionCounter) (bounded : barrier.executionCounter < counterSize) :
    (decrement barrier).executionCounter = barrier.executionCounter - 1 := by
  simp only [decrement, counterSize] at *
  omega

def store (barrier : PromotionBarrier Agent) (state : PromotionState) : PromotionBarrier Agent :=
  { barrier with state := state }

/-- Where a thread goes that `enter_execution` has refused. -/
def afterRefusal (waits : Bool) : Phase := if waits then .locking else .resting

/-- The atomic steps. -/
inductive Acts : Protocol Agent (PromotionBarrier Agent) Phase
  -- `enter_execution`
  | enter {agent barrier} (waits : Bool) : Acts agent barrier .resting barrier (.starting waits)
  | loadIdle {agent barrier waits} : barrier.state = .idle →
      Acts agent barrier (.starting waits) barrier (.admitted waits)
  | loadBusy {agent barrier waits} : barrier.state ≠ .idle →
      Acts agent barrier (.starting waits) barrier (afterRefusal waits)
  | count {agent barrier waits} :
      Acts agent barrier (.admitted waits) (increment barrier) (.counted waits)
  | confirm {agent barrier waits} : barrier.state = .idle →
      Acts agent barrier (.counted waits) barrier .inside
  | refuse {agent barrier waits} : barrier.state ≠ .idle →
      Acts agent barrier (.counted waits) barrier (.refused waits)
  | uncount {agent barrier waits} :
      Acts agent barrier (.refused waits) (decrement barrier) (.uncounted waits)
  | notifyDrain {agent barrier waits} :
      Acts agent barrier (.uncounted waits) barrier (afterRefusal waits)
  -- `wait_and_enter_execution`
  | lock {agent barrier} : barrier.waitMutex = none →
      Acts agent barrier .locking { barrier with waitMutex := some agent } .locked
  | recheckIdle {agent barrier} : barrier.state = .idle →
      Acts agent barrier .locked { barrier with waitMutex := none } (.starting true)
  | recheckBusy {agent barrier} : barrier.state ≠ .idle →
      Acts agent barrier .locked barrier .checked
  | wait {agent barrier} :
      Acts agent barrier .checked
        { barrier with waitMutex := none, waiting := insert agent barrier.waiting } .asleep
  | wakeSpuriously {agent barrier} :
      Acts agent barrier .asleep { barrier with waiting := barrier.waiting \ {agent} } .asleep
  | relock {agent barrier} : agent ∉ barrier.waiting → barrier.waitMutex = none →
      Acts agent barrier .asleep { barrier with waitMutex := some agent } .relocked
  | unlock {agent barrier} :
      Acts agent barrier .relocked { barrier with waitMutex := none } (.starting true)
  -- `exit_execution`
  | exit {agent barrier} :
      Acts agent barrier .inside (decrement barrier)
        (.leaving (barrier.executionCounter == 1))
  | exitQuietly {agent barrier last} : last = false ∨ barrier.state = .idle →
      Acts agent barrier (.leaving last) barrier .resting
  | exitLast {agent barrier} : barrier.state ≠ .idle →
      Acts agent barrier (.leaving true) barrier .signalling
  | signal {agent barrier} : Acts agent barrier .signalling barrier .resting
  -- `request_promotion`
  | request {agent barrier} : Acts agent barrier .resting barrier .requesting
  | granted {agent barrier} : barrier.state = .idle →
      Acts agent barrier .requesting (store barrier .promotionRequested) .draining
  | denied {agent barrier} : barrier.state ≠ .idle →
      Acts agent barrier .requesting barrier .resting
  -- `wait_for_drain`
  | foundDrained {agent barrier} : barrier.executionCounter = 0 →
      Acts agent barrier .draining barrier .drained
  | foundUndrained {agent barrier} : barrier.executionCounter ≠ 0 →
      Acts agent barrier .draining barrier .undrained
  | again {agent barrier} : Acts agent barrier .undrained barrier .draining
  | expire {agent barrier} : Acts agent barrier .undrained barrier .timedOut
  | advance {agent barrier} :
      Acts agent barrier .drained (store barrier .promotionInProgress) .swapping
  -- `complete_promotion`
  | complete {agent barrier} : Acts agent barrier .swapping barrier (.completing true)
  | completeAnyway {agent barrier} : Acts agent barrier .timedOut barrier (.completing false)
  | storeIdle {agent barrier swapped} :
      Acts agent barrier (.completing swapped) (store barrier .idle) .notifying
  -- `cancel_promotion`
  | cancelSwap {agent barrier} : Acts agent barrier .swapping barrier (.cancelling true)
  | cancel {agent barrier} : Acts agent barrier .timedOut barrier (.cancelling false)
  | resetRequested {agent barrier swapped} : barrier.state = .promotionRequested →
      Acts agent barrier (.cancelling swapped) (store barrier .idle) (.cancellingSwap swapped true)
  | keepOther {agent barrier swapped} : barrier.state ≠ .promotionRequested →
      Acts agent barrier (.cancelling swapped) barrier (.cancellingSwap swapped false)
  | resetInProgress {agent barrier swapped released} : barrier.state = .promotionInProgress →
      Acts agent barrier (.cancellingSwap swapped released) (store barrier .idle) .notifying
  | keepState {agent barrier swapped released} : barrier.state ≠ .promotionInProgress →
      Acts agent barrier (.cancellingSwap swapped released) barrier .notifying
  | notifyAll {agent barrier} :
      Acts agent barrier .notifying { barrier with waiting := ∅ } .resting

/-- `PromotionBarrier::new`, and nobody at work. -/
def initial : Config Agent (PromotionBarrier Agent) Phase :=
  ⟨⟨.idle, 0, none, ∅⟩, fun _ => .resting⟩

/-- `wait_for_drain` has returned true, and the promotion is neither completed nor
cancelled. -/
def Phase.swaps : Phase → Bool
  | .swapping | .completing true | .cancelling true | .cancellingSwap true false => true
  | _ => false

/-- Between a successful request and its completion or cancellation. -/
def Phase.promotes : Phase → Bool
  | .draining | .drained | .undrained | .timedOut | .completing false | .cancelling false
  | .cancellingSwap false false => true
  | phase => phase.swaps

/-- Inside, or about to back out. -/
def Phase.counts : Phase → Bool
  | .counted _ | .refused _ | .inside => true
  | _ => false

/-- About to wake the sleepers. -/
def Phase.notifies : Phase → Bool
  | .notifying | .cancellingSwap _ true => true
  | _ => false

@[simp] theorem promotes_completing (swapped : Bool) :
    (Phase.completing swapped).promotes = true := by
  cases swapped <;> rfl

@[simp] theorem promotes_cancelling (swapped : Bool) :
    (Phase.cancelling swapped).promotes = true := by
  cases swapped <;> rfl

@[simp] theorem promotes_cancellingSwap (swapped released : Bool) :
    (Phase.cancellingSwap swapped released).promotes = !released := by
  cases swapped <;> cases released <;> rfl

@[simp] theorem notifies_cancellingSwap (swapped released : Bool) :
    (Phase.cancellingSwap swapped released).notifies = released := by
  cases released <;> rfl

@[simp] theorem promotes_afterRefusal (waits : Bool) : (afterRefusal waits).promotes = false := by
  cases waits <;> rfl

@[simp] theorem counts_afterRefusal (waits : Bool) : (afterRefusal waits).counts = false := by
  cases waits <;> rfl

@[simp] theorem afterRefusal_ne_inside (waits : Bool) : afterRefusal waits ≠ .inside := by
  cases waits <;> exact Phase.noConfusion

@[simp] theorem afterRefusal_ne_checked (waits : Bool) : afterRefusal waits ≠ .checked := by
  cases waits <;> exact Phase.noConfusion

structure Safe [Fintype Agent] (config : Config Agent (PromotionBarrier Agent) Phase) : Prop where
  /-- No thread is inside an execution while code is swapped. -/
  exclusion : ∀ promoter agent, (config.phase promoter).swaps = true → config.phase agent ≠ .inside
  onePromoter : ∀ promoter other, (config.phase promoter).promotes = true →
    (config.phase other).promotes = true → promoter = other
  counter : config.shared.executionCounter = count config Phase.counts
  /-- Whoever sleeps at an idle barrier is about to be woken. -/
  noneStranded : config.shared.state = .idle → ∀ agent ∈ config.shared.waiting,
    ∃ waker, (config.phase waker).notifies = true

end Rayzor.Tiering
