import Mathlib

/-!
Contract: bounded queues that may be closed, shared by agents.

Owns: the history of acceptances, deliveries, returns and closings; the steps of
such a system; and what every history of it satisfies.
-/

namespace Rayzor.Library

universe u v w

namespace Mailboxes

inductive Event (Agent : Type u) (Box : Type v) (Value : Type w) where
  | accepted (agent : Agent) (box : Box) (value : Value)
  | taken (agent : Agent) (box : Box) (value : Value)
  | returned (agent : Agent) (box : Box) (value : Value)
  | closed (agent : Agent) (box : Box)
  | toldClosed (agent : Agent) (box : Box)

variable {Agent : Type u} {Box : Type v} {Value : Type w} [DecidableEq Agent] [DecidableEq Box]

def Event.acceptedAt (box : Box) : Event Agent Box Value → Option Value
  | .accepted _ other value => if other = box then some value else none
  | _ => none

def Event.takenAt (box : Box) : Event Agent Box Value → Option Value
  | .taken _ other value => if other = box then some value else none
  | _ => none

def Event.takenBy (agent : Agent) : Event Agent Box Value → Option (Box × Value)
  | .taken other box value => if other = agent then some (box, value) else none
  | _ => none

def Event.returnedTo (agent : Agent) : Event Agent Box Value → Option (Box × Value)
  | .returned other box value => if other = agent then some (box, value) else none
  | _ => none

def Event.closes : Event Agent Box Value → Option Box
  | .closed _ box => some box
  | _ => none

def Event.tells : Event Agent Box Value → Option Box
  | .toldClosed _ box => some box
  | _ => none

end Mailboxes

open Mailboxes

/-- Queues, what each agent has taken and not yet returned, and the history, oldest
first. A capacity of 0 is no bound. -/
structure Mailboxes (Agent : Type u) (Box : Type v) (Value : Type w) where
  buffer : Box → List Value
  capacity : Box → Nat
  closed : Box → Bool
  hand : Agent → Option (Box × Value)
  trace : List (Event Agent Box Value)

namespace Mailboxes

variable {Agent : Type u} {Box : Type v} {Value : Type w} [DecidableEq Agent] [DecidableEq Box]

def accept (boxes : Mailboxes Agent Box Value) (agent : Agent) (box : Box) (value : Value) :
    Mailboxes Agent Box Value :=
  { boxes with
    buffer := Function.update boxes.buffer box (boxes.buffer box ++ [value])
    trace := boxes.trace ++ [.accepted agent box value] }

def take (boxes : Mailboxes Agent Box Value) (agent : Agent) (box : Box) (value : Value)
    (rest : List Value) : Mailboxes Agent Box Value :=
  { boxes with
    buffer := Function.update boxes.buffer box rest
    hand := Function.update boxes.hand agent (some (box, value))
    trace := boxes.trace ++ [.taken agent box value] }

def giveBack (boxes : Mailboxes Agent Box Value) (agent : Agent) (box : Box) (value : Value) :
    Mailboxes Agent Box Value :=
  { boxes with
    hand := Function.update boxes.hand agent none
    trace := boxes.trace ++ [.returned agent box value] }

def close (boxes : Mailboxes Agent Box Value) (agent : Agent) (box : Box) :
    Mailboxes Agent Box Value :=
  { boxes with
    closed := Function.update boxes.closed box true
    trace := boxes.trace ++ [.closed agent box] }

def tell (boxes : Mailboxes Agent Box Value) (agent : Agent) (box : Box) :
    Mailboxes Agent Box Value :=
  { boxes with trace := boxes.trace ++ [.toldClosed agent box] }

inductive Step : Mailboxes Agent Box Value → Mailboxes Agent Box Value → Prop
  | accept {boxes agent box value} : boxes.closed box = false →
      (boxes.capacity box = 0 ∨ (boxes.buffer box).length < boxes.capacity box) →
      Step boxes (boxes.accept agent box value)
  | take {boxes agent box value rest} : boxes.hand agent = none →
      boxes.buffer box = value :: rest → Step boxes (boxes.take agent box value rest)
  | giveBack {boxes agent box value} : boxes.hand agent = some (box, value) →
      Step boxes (boxes.giveBack agent box value)
  | close {boxes agent box} : Step boxes (boxes.close agent box)
  | tell {boxes agent box} : boxes.closed box = true → boxes.buffer box = [] →
      Step boxes (boxes.tell agent box)

structure Lawful (boxes : Mailboxes Agent Box Value) : Prop where
  /-- What was accepted is what was taken, in this order, and what still waits. -/
  delivered : ∀ box, boxes.trace.filterMap (Event.acceptedAt box) =
    boxes.trace.filterMap (Event.takenAt box) ++ boxes.buffer box
  /-- Each agent returns what it takes, one value at a time. -/
  answered : ∀ agent, boxes.trace.filterMap (Event.takenBy agent) =
    boxes.trace.filterMap (Event.returnedTo agent) ++ (boxes.hand agent).toList
  bounded : ∀ box, boxes.capacity box ≠ 0 → (boxes.buffer box).length ≤ boxes.capacity box
  staysClosed : ∀ event ∈ boxes.trace, ∀ box, event.closes = some box → boxes.closed box = true
  noneAfterClose : boxes.trace.Pairwise fun earlier later =>
    ∀ box, earlier.closes = some box → later.acceptedAt box = none
  told : ∀ event ∈ boxes.trace, ∀ box, event.tells = some box →
    boxes.closed box = true ∧ boxes.buffer box = []
  /-- All is delivered before anybody is told. -/
  noneAfterTold : boxes.trace.Pairwise fun earlier later => ∀ box, earlier.tells = some box →
    later.acceptedAt box = none ∧ later.takenAt box = none

/-- Open queues, with nothing in them. -/
def empty (capacity : Box → Nat) : Mailboxes Agent Box Value :=
  ⟨fun _ => [], capacity, fun _ => false, fun _ => none, []⟩

theorem lawful_empty (capacity : Box → Nat) :
    (empty capacity : Mailboxes Agent Box Value).Lawful where
  delivered := fun _ => rfl
  answered := fun _ => rfl
  bounded := fun _ _ => Nat.zero_le _
  staysClosed := fun _ isIn => absurd isIn List.not_mem_nil
  noneAfterClose := List.Pairwise.nil
  told := fun _ isIn => absurd isIn List.not_mem_nil
  noneAfterTold := List.Pairwise.nil

omit [DecidableEq Agent] [DecidableEq Box] in
/-- A relation between earlier and later events, one event later. -/
theorem pairwise_snoc {Item : Type*} {relates : Item → Item → Prop} {items : List Item}
    {last : Item} (pairwise : items.Pairwise relates) (relatesLast : ∀ item ∈ items, relates item last) :
    (items ++ [last]).Pairwise relates := by
  rw [List.pairwise_append]
  refine ⟨pairwise, List.pairwise_singleton _ _, fun item isIn other isLast => ?_⟩
  rw [List.mem_singleton] at isLast
  exact isLast ▸ relatesLast item isIn

omit [DecidableEq Agent] [DecidableEq Box] in
theorem mem_of_mem_snoc {Item : Type*} {items : List Item} {last item : Item}
    (isIn : item ∈ items ++ [last]) (isOther : item ≠ last) : item ∈ items :=
  (List.mem_append.mp isIn).resolve_right fun isLast => isOther (List.mem_singleton.mp isLast)

variable {boxes next : Mailboxes Agent Box Value}

theorem Lawful.accept {agent : Agent} {box : Box} {value : Value} (lawful : boxes.Lawful)
    (isOpen : boxes.closed box = false)
    (hasRoom : boxes.capacity box = 0 ∨ (boxes.buffer box).length < boxes.capacity box) :
    (boxes.accept agent box value).Lawful where
  delivered := by
    intro other
    have before := lawful.delivered other
    by_cases same : box = other
    · subst same
      simp [Mailboxes.accept, Event.acceptedAt, Event.takenAt, before]
    · simp [Mailboxes.accept, Event.acceptedAt, Event.takenAt, before, same,
        Function.update_of_ne (Ne.symm same)]
  answered := by
    intro other
    simpa [Mailboxes.accept, Event.takenBy, Event.returnedTo, List.filterMap_cons] using
      lawful.answered other
  bounded := by
    intro other isBounded
    have before := lawful.bounded other isBounded
    by_cases same : box = other
    · subst same
      have grows := hasRoom.resolve_left isBounded
      simpa [Mailboxes.accept] using grows
    · simpa [Mailboxes.accept, Function.update_of_ne (Ne.symm same)] using before
  staysClosed := by
    intro event isIn other closes
    apply lawful.staysClosed event (mem_of_mem_snoc isIn ?_) other closes
    intro isLast
    rw [isLast] at closes
    cases closes
  noneAfterClose := by
    apply pairwise_snoc lawful.noneAfterClose
    intro event isIn other closes
    have isClosed := lawful.staysClosed event isIn other closes
    have differs : box ≠ other := by
      intro same
      rw [← same, isOpen] at isClosed
      cases isClosed
    exact if_neg differs
  told := by
    intro event isIn other tells
    have wasIn : event ∈ boxes.trace := by
      apply mem_of_mem_snoc isIn
      intro isLast
      rw [isLast] at tells
      cases tells
    have before := lawful.told event wasIn other tells
    have differs : other ≠ box := by
      intro same
      rw [same, isOpen] at before
      cases before.1
    exact ⟨before.1, (Function.update_of_ne differs _ _).trans before.2⟩
  noneAfterTold := by
    apply pairwise_snoc lawful.noneAfterTold
    intro event isIn other tells
    have before := lawful.told event isIn other tells
    have differs : box ≠ other := by
      intro same
      rw [← same, isOpen] at before
      cases before.1
    exact ⟨if_neg differs, rfl⟩

theorem Lawful.take {agent : Agent} {box : Box} {value : Value} {rest : List Value}
    (lawful : boxes.Lawful) (isFree : boxes.hand agent = none)
    (starts : boxes.buffer box = value :: rest) : (boxes.take agent box value rest).Lawful where
  delivered := by
    intro other
    have before := lawful.delivered other
    by_cases same : box = other
    · subst same
      simp [Mailboxes.take, Event.acceptedAt, Event.takenAt, List.filterMap_cons, before, starts]
    · simp [Mailboxes.take, Event.acceptedAt, Event.takenAt, List.filterMap_cons, before, same,
        Function.update_of_ne (Ne.symm same)]
  answered := by
    intro other
    have before := lawful.answered other
    by_cases same : agent = other
    · subst same
      simp [Mailboxes.take, Event.takenBy, Event.returnedTo, List.filterMap_cons, before, isFree]
    · simp [Mailboxes.take, Event.takenBy, Event.returnedTo, List.filterMap_cons, before, same,
        Function.update_of_ne (Ne.symm same)]
  bounded := by
    intro other isBounded
    have before := lawful.bounded other isBounded
    by_cases same : box = other
    · subst same
      rw [starts, List.length_cons] at before
      simpa [Mailboxes.take] using Nat.le_of_succ_le before
    · simpa [Mailboxes.take, Function.update_of_ne (Ne.symm same)] using before
  staysClosed := by
    intro event isIn other closes
    apply lawful.staysClosed event (mem_of_mem_snoc isIn ?_) other closes
    intro isLast
    rw [isLast] at closes
    cases closes
  noneAfterClose := pairwise_snoc lawful.noneAfterClose fun _ _ _ _ => rfl
  told := by
    intro event isIn other tells
    have wasIn : event ∈ boxes.trace := by
      apply mem_of_mem_snoc isIn
      intro isLast
      rw [isLast] at tells
      cases tells
    have before := lawful.told event wasIn other tells
    have differs : other ≠ box := by
      intro same
      rw [same, starts] at before
      cases before.2
    exact ⟨before.1, (Function.update_of_ne differs _ _).trans before.2⟩
  noneAfterTold := by
    apply pairwise_snoc lawful.noneAfterTold
    intro event isIn other tells
    have before := lawful.told event isIn other tells
    have differs : box ≠ other := by
      intro same
      rw [← same, starts] at before
      cases before.2
    exact ⟨rfl, if_neg differs⟩

theorem Lawful.giveBack {agent : Agent} {box : Box} {value : Value} (lawful : boxes.Lawful)
    (holds : boxes.hand agent = some (box, value)) : (boxes.giveBack agent box value).Lawful where
  delivered := by
    intro other
    simpa [Mailboxes.giveBack, Event.acceptedAt, Event.takenAt, List.filterMap_cons] using
      lawful.delivered other
  answered := by
    intro other
    have before := lawful.answered other
    by_cases same : agent = other
    · subst same
      simp [Mailboxes.giveBack, Event.takenBy, Event.returnedTo, List.filterMap_cons, before, holds]
    · simp [Mailboxes.giveBack, Event.takenBy, Event.returnedTo, List.filterMap_cons, before, same,
        Function.update_of_ne (Ne.symm same)]
  bounded := lawful.bounded
  staysClosed := by
    intro event isIn other closes
    apply lawful.staysClosed event (mem_of_mem_snoc isIn ?_) other closes
    intro isLast
    rw [isLast] at closes
    cases closes
  noneAfterClose := pairwise_snoc lawful.noneAfterClose fun _ _ _ _ => rfl
  told := by
    intro event isIn other tells
    apply lawful.told event (mem_of_mem_snoc isIn ?_) other tells
    intro isLast
    rw [isLast] at tells
    cases tells
  noneAfterTold := pairwise_snoc lawful.noneAfterTold fun _ _ _ _ => ⟨rfl, rfl⟩

theorem Lawful.close {agent : Agent} {box : Box} (lawful : boxes.Lawful) :
    (boxes.close agent box).Lawful where
  delivered := by
    intro other
    simpa [Mailboxes.close, Event.acceptedAt, Event.takenAt, List.filterMap_cons] using
      lawful.delivered other
  answered := by
    intro other
    simpa [Mailboxes.close, Event.takenBy, Event.returnedTo, List.filterMap_cons] using
      lawful.answered other
  bounded := lawful.bounded
  staysClosed := by
    intro event isIn other closes
    by_cases same : other = box
    · rw [same]
      exact Function.update_self box true boxes.closed
    · refine (Function.update_of_ne same _ _).trans
        (lawful.staysClosed event (mem_of_mem_snoc isIn ?_) other closes)
      intro isLast
      rw [isLast] at closes
      exact same (Option.some.inj closes).symm
  noneAfterClose := pairwise_snoc lawful.noneAfterClose fun _ _ _ _ => rfl
  told := by
    intro event isIn other tells
    have wasIn : event ∈ boxes.trace := by
      apply mem_of_mem_snoc isIn
      intro isLast
      rw [isLast] at tells
      cases tells
    have before := lawful.told event wasIn other tells
    refine ⟨?_, before.2⟩
    by_cases same : other = box
    · rw [same]
      exact Function.update_self box true boxes.closed
    · exact (Function.update_of_ne same _ _).trans before.1
  noneAfterTold := pairwise_snoc lawful.noneAfterTold fun _ _ _ _ => ⟨rfl, rfl⟩

theorem Lawful.tell {agent : Agent} {box : Box} (lawful : boxes.Lawful)
    (isClosed : boxes.closed box = true) (isEmpty : boxes.buffer box = []) :
    (boxes.tell agent box).Lawful where
  delivered := by
    intro other
    simpa [Mailboxes.tell, Event.acceptedAt, Event.takenAt, List.filterMap_cons] using
      lawful.delivered other
  answered := by
    intro other
    simpa [Mailboxes.tell, Event.takenBy, Event.returnedTo, List.filterMap_cons] using
      lawful.answered other
  bounded := lawful.bounded
  staysClosed := by
    intro event isIn other closes
    apply lawful.staysClosed event (mem_of_mem_snoc isIn ?_) other closes
    intro isLast
    rw [isLast] at closes
    cases closes
  noneAfterClose := pairwise_snoc lawful.noneAfterClose fun _ _ _ _ => rfl
  told := by
    intro event isIn other tells
    by_cases same : other = box
    · rw [same]
      exact ⟨isClosed, isEmpty⟩
    · apply lawful.told event (mem_of_mem_snoc isIn ?_) other tells
      intro isLast
      rw [isLast] at tells
      exact same (Option.some.inj tells).symm
  noneAfterTold := pairwise_snoc lawful.noneAfterTold fun _ _ _ _ => ⟨rfl, rfl⟩

theorem Lawful.step (lawful : boxes.Lawful) (step : Step boxes next) : next.Lawful := by
  cases step with
  | accept isOpen hasRoom => exact lawful.accept isOpen hasRoom
  | take isFree starts => exact lawful.take isFree starts
  | giveBack holds => exact lawful.giveBack holds
  | close => exact lawful.close
  | tell isClosed isEmpty => exact lawful.tell isClosed isEmpty

end Mailboxes

end Rayzor.Library
