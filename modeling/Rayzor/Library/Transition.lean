import Mathlib

/-!
Contract: deterministic step machines that either go on or halt with an
outcome, and what it means for two of them to be indistinguishable.

Owns: bounded runs and how they compose; halting and reachability; the behavioural
equivalence of two machines; and the simulation rule for it, where a step may be
matched by none as long as a measure goes down.

Does not own: any particular machine. Observations are an arbitrary list that
only grows.
-/

namespace Rayzor.Library

universe u v w

/-- A deterministic machine. `observed` is what a run has shown so far, newest
first; stepping only adds to it. -/
structure Machine (State : Type u) (Outcome : Type v) (Event : Type w) where
  step : State → State ⊕ Outcome
  observed : State → List Event
  observed_step : ∀ {state next : State}, step state = .inl next →
    observed state <:+ observed next

namespace Machine

variable {State State' : Type*} {Outcome : Type*} {Event : Type*}

def run (machine : Machine State Outcome Event) : Nat → State → State ⊕ Outcome
  | 0, state => .inl state
  | count + 1, state =>
      match machine.step state with
      | .inl next => machine.run count next
      | .inr outcome => .inr outcome

def Halts (machine : Machine State Outcome Event) (state : State) (outcome : Outcome) : Prop :=
  ∃ count, machine.run count state = .inr outcome

def Reaches (machine : Machine State Outcome Event) (start state : State) : Prop :=
  ∃ count, machine.run count start = .inl state

variable {machine : Machine State Outcome Event} {machine' : Machine State' Outcome Event}

@[simp] theorem run_zero (state : State) : machine.run 0 state = .inl state := rfl

theorem run_succ_of_next {state next : State} (count : Nat)
    (stepped : machine.step state = .inl next) :
    machine.run (count + 1) state = machine.run count next := by
  simp [run, stepped]

theorem run_succ_of_outcome {state : State} {outcome : Outcome} (count : Nat)
    (stepped : machine.step state = .inr outcome) :
    machine.run (count + 1) state = .inr outcome := by
  simp [run, stepped]

theorem run_add {start middle : State} (first second : Nat)
    (reached : machine.run first start = .inl middle) :
    machine.run (first + second) start = machine.run second middle := by
  induction first generalizing start with
  | zero =>
      cases reached
      simp
  | succ first ih =>
      rw [Nat.add_right_comm]
      simp only [run] at reached ⊢
      cases stepped : machine.step start with
      | inl next =>
          rw [stepped] at reached
          exact ih reached
      | inr outcome => simp [stepped] at reached

theorem run_outcome_mono {state : State} {outcome : Outcome} {first : Nat}
    (halted : machine.run first state = .inr outcome) (more : Nat) :
    machine.run (first + more) state = .inr outcome := by
  induction first generalizing state with
  | zero => cases halted
  | succ first ih =>
      rw [Nat.add_right_comm]
      simp only [run] at halted ⊢
      cases stepped : machine.step state with
      | inl next =>
          rw [stepped] at halted
          exact ih halted
      | inr reached =>
          rw [stepped] at halted
          exact halted

theorem Halts.unique {state : State} {first second : Outcome}
    (halts : machine.Halts state first) (halts' : machine.Halts state second) :
    first = second := by
  obtain ⟨count, halted⟩ := halts
  obtain ⟨count', halted'⟩ := halts'
  have left := run_outcome_mono halted count'
  have right := run_outcome_mono halted' count
  rw [Nat.add_comm] at right
  exact Sum.inr.inj (left.symm.trans right)

theorem Reaches.refl (state : State) : machine.Reaches state state := ⟨0, rfl⟩

theorem Reaches.trans {first second third : State} (reaches : machine.Reaches first second)
    (reaches' : machine.Reaches second third) : machine.Reaches first third := by
  obtain ⟨count, reached⟩ := reaches
  obtain ⟨count', reached'⟩ := reaches'
  exact ⟨count + count', by rw [run_add count count' reached, reached']⟩

theorem Reaches.of_step {state next : State} (stepped : machine.step state = .inl next) :
    machine.Reaches state next := ⟨1, by simp [run, stepped]⟩

theorem Halts.of_reaches {state next : State} {outcome : Outcome}
    (reaches : machine.Reaches state next) (halts : machine.Halts next outcome) :
    machine.Halts state outcome := by
  obtain ⟨count, reached⟩ := reaches
  obtain ⟨count', halted⟩ := halts
  exact ⟨count + count', by rw [run_add count count' reached, halted]⟩

theorem Halts.after {state next : State} {outcome : Outcome}
    (halts : machine.Halts state outcome) (reaches : machine.Reaches state next) :
    machine.Halts next outcome := by
  obtain ⟨count, reached⟩ := reaches
  obtain ⟨count', halted⟩ := halts
  refine ⟨count', ?_⟩
  have long := run_outcome_mono halted count
  rw [Nat.add_comm, run_add count count' reached] at long
  exact long

theorem observed_of_reaches {state next : State} (reaches : machine.Reaches state next) :
    machine.observed state <:+ machine.observed next := by
  obtain ⟨count, reached⟩ := reaches
  induction count generalizing state with
  | zero =>
      cases reached
      exact List.suffix_refl _
  | succ count ih =>
      simp only [run] at reached
      cases stepped : machine.step state with
      | inl middle =>
          rw [stepped] at reached
          exact (machine.observed_step stepped).trans (ih reached)
      | inr outcome => simp [stepped] at reached

/-- An invariant of single steps holds along a whole run. -/
theorem invariant_of_reaches (Holds : State → Prop)
    (preserved : ∀ {state next}, Holds state → machine.step state = .inl next → Holds next)
    {start state : State} (holds : Holds start) (reaches : machine.Reaches start state) :
    Holds state := by
  obtain ⟨count, reached⟩ := reaches
  induction count generalizing start with
  | zero =>
      cases reached
      exact holds
  | succ count ih =>
      simp only [run] at reached
      cases stepped : machine.step start with
      | inl middle =>
          rw [stepped] at reached
          exact ih (preserved holds stepped) reached
      | inr outcome => simp [stepped] at reached

/-- Everything `left` does, `right` does too: it halts with the same outcome,
and if it goes on for ever, whatever it has shown at some point `right` shows at
some point. -/
structure Covers (machine : Machine State Outcome Event)
    (machine' : Machine State' Outcome Event) (left : State) (right : State') : Prop where
  halts : ∀ outcome, machine.Halts left outcome → machine'.Halts right outcome
  shows : (¬∃ outcome, machine.Halts left outcome) → ∀ state, machine.Reaches left state →
    ∃ state', machine'.Reaches right state' ∧
      machine.observed state <:+ machine'.observed state'

/-- Same outcomes and, for runs that go on, the same observations. -/
structure SameBehaviour (machine : Machine State Outcome Event)
    (machine' : Machine State' Outcome Event) (left : State) (right : State') : Prop where
  forward : Covers machine machine' left right
  backward : Covers machine' machine right left

section Composed

variable {State'' : Type*} {machine'' : Machine State'' Outcome Event} {left : State}
  {middle : State'} {right : State''}

end Composed

/-- A run that leads up to an equivalent state is equivalent too. -/
theorem SameBehaviour.of_reaches {left : State} {right earlier : State'}
    (same : SameBehaviour machine machine' left right) (reaches : machine'.Reaches earlier right) :
    SameBehaviour machine machine' left earlier where
  forward :=
    { halts := fun outcome halts => .of_reaches reaches (same.forward.halts outcome halts)
      shows := by
        intro diverges state reached
        obtain ⟨state', reached', shown⟩ := same.forward.shows diverges state reached
        exact ⟨state', reaches.trans reached', shown⟩ }
  backward :=
    { halts := fun outcome halts => same.backward.halts outcome (halts.after reaches)
      shows := by
        intro diverges state reached
        have onwards : ¬∃ outcome, machine'.Halts right outcome :=
          fun ⟨outcome, halts⟩ => diverges ⟨outcome, .of_reaches reaches halts⟩
        obtain ⟨lead, toRight⟩ := reaches
        obtain ⟨count, toState⟩ := reached
        rcases Nat.le_total count lead with before | after
        · obtain ⟨state', reached', shown⟩ := same.backward.shows onwards right (.refl right)
          refine ⟨state', reached', .trans (observed_of_reaches ⟨lead - count, ?_⟩) shown⟩
          rw [← run_add count _ toState, Nat.add_sub_cancel' before, toRight]
        · refine same.backward.shows onwards state ⟨count - lead, ?_⟩
          rw [← run_add lead _ toRight, Nat.add_sub_cancel' after, toState] }

/-- Each step on the left is matched by steps on the right. No step at all will
do as long as the rank goes down, so the left cannot leave the right behind for
ever. -/
structure Simulates (machine : Machine State Outcome Event)
    (machine' : Machine State' Outcome Event) (Related : State → State' → Prop)
    (rank : State → Nat) : Prop where
  observed : ∀ {left right}, Related left right →
    machine.observed left = machine'.observed right
  next : ∀ {left next right}, Related left right → machine.step left = .inl next →
    ∃ count right', machine'.run count right = .inl right' ∧ Related next right' ∧
      (count = 0 → rank next < rank left)
  outcome : ∀ {left right outcome}, Related left right → machine.step left = .inr outcome →
    machine'.Halts right outcome

namespace Simulates

variable {Related : State → State' → Prop} {rank : State → Nat} {left : State} {right : State'}

theorem halts (simulates : Simulates machine machine' Related rank) (related : Related left right)
    {outcome : Outcome} (halts : machine.Halts left outcome) : machine'.Halts right outcome := by
  obtain ⟨count, halted⟩ := halts
  induction count generalizing left right with
  | zero => cases halted
  | succ count ih =>
      simp only [run] at halted
      cases stepped : machine.step left with
      | inl next =>
          rw [stepped] at halted
          obtain ⟨_, right', reached, related', -⟩ := simulates.next related stepped
          exact Halts.of_reaches ⟨_, reached⟩ (ih related' halted)
      | inr reached =>
          rw [stepped] at halted
          cases halted
          exact simulates.outcome related stepped

theorem reaches (simulates : Simulates machine machine' Related rank)
    (related : Related left right) {state : State} (reaches : machine.Reaches left state) :
    ∃ state', machine'.Reaches right state' ∧ Related state state' := by
  obtain ⟨count, reached⟩ := reaches
  induction count generalizing left right with
  | zero =>
      cases reached
      exact ⟨right, Reaches.refl right, related⟩
  | succ count ih =>
      simp only [run] at reached
      cases stepped : machine.step left with
      | inl next =>
          rw [stepped] at reached
          obtain ⟨_, right', moved, related', -⟩ := simulates.next related stepped
          obtain ⟨state', reached', final⟩ := ih related' reached
          exact ⟨state', Reaches.trans ⟨_, moved⟩ reached', final⟩
      | inr outcome => simp [stepped] at reached

/-- Wherever the right is after `count` steps, either the left has halted or it
has gone on to a state related to one at least that far along. -/
theorem overtakes (simulates : Simulates machine machine' Related rank)
    (related : Related left right) (count : Nat) :
    (∃ outcome, machine.Halts left outcome) ∨
      ∃ state state' far, machine.Reaches left state ∧ machine'.run far right = .inl state' ∧
        count ≤ far ∧ Related state state' := by
  induction count using Nat.strong_induction_on generalizing left right with
  | _ count longer =>
    obtain ⟨bound, ranked⟩ : ∃ bound, rank left = bound := ⟨_, rfl⟩
    induction bound using Nat.strong_induction_on generalizing left right with
    | _ bound lower =>
      cases stepped : machine.step left with
      | inr outcome => exact Or.inl ⟨outcome, 1, by simp [run, stepped]⟩
      | inl next =>
          obtain ⟨moves, right', moved, related', stutter⟩ := simulates.next related stepped
          have continued : (∃ outcome, machine.Halts next outcome) ∨
              ∃ state state' far, machine.Reaches next state ∧
                machine'.run far right' = .inl state' ∧ count ≤ moves + far ∧
                Related state state' := by
            rcases Nat.eq_zero_or_pos moves with none | some
            · subst none
              have below : rank next < bound := by
                rw [← ranked]
                exact stutter rfl
              rcases lower _ below related' rfl with halted | found
              · exact Or.inl halted
              · obtain ⟨state, state', far, reached, ran, enough, final⟩ := found
                exact Or.inr ⟨state, state', far, reached, ran, by omega, final⟩
            · rcases Nat.eq_zero_or_pos count with zero | positive
              · exact Or.inr ⟨next, right', 0, Reaches.refl next, rfl, by omega, related'⟩
              · rcases longer (count - moves) (by omega) related' with halted | found
                · exact Or.inl halted
                · obtain ⟨state, state', far, reached, ran, enough, final⟩ := found
                  exact Or.inr ⟨state, state', far, reached, ran, by omega, final⟩
          rcases continued with ⟨outcome, halted⟩ | ⟨state, state', far, reached, ran, enough, final⟩
          · exact Or.inl ⟨outcome, Halts.of_reaches (Reaches.of_step stepped) halted⟩
          · exact Or.inr ⟨state, state', moves + far,
              Reaches.trans (Reaches.of_step stepped) reached,
              by rw [run_add moves far moved, ran], enough, final⟩

/-- A simulation between deterministic machines works in both directions. -/
theorem sameBehaviour (simulates : Simulates machine machine' Related rank)
    (related : Related left right) : SameBehaviour machine machine' left right where
  forward :=
    { halts := fun _ halted => simulates.halts related halted
      shows := by
        intro _ state reached
        obtain ⟨state', reached', final⟩ := simulates.reaches related reached
        exact ⟨state', reached', by rw [simulates.observed final]⟩ }
  backward :=
    { halts := by
        rintro outcome ⟨count, halted⟩
        rcases simulates.overtakes related count with ⟨outcome', halts⟩ | found
        · have same := Halts.unique ⟨count, halted⟩ (simulates.halts related halts)
          rw [same]
          exact halts
        · obtain ⟨_, state', far, -, ran, enough, -⟩ := found
          have stopped := run_outcome_mono halted (far - count)
          rw [Nat.add_sub_cancel' enough, ran] at stopped
          cases stopped
      shows := by
        rintro diverges state ⟨count, reached⟩
        rcases simulates.overtakes related count with ⟨outcome, halts⟩ | found
        · exact absurd ⟨outcome, simulates.halts related halts⟩ diverges
        · obtain ⟨state', right', far, reached', ran, enough, final⟩ := found
          refine ⟨state', reached', ?_⟩
          rw [simulates.observed final]
          refine observed_of_reaches ⟨far - count, ?_⟩
          rw [← run_add count (far - count) reached, Nat.add_sub_cancel' enough, ran] }

end Simulates

end Machine

end Rayzor.Library
