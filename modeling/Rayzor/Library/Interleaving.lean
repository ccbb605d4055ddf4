import Mathlib

/-!
Contract: agents that take atomic steps in any order on a shared state.

Owns: configurations, runs of steps, the rule of invariants over runs, and how the
number of agents in a phase changes when one of them moves.
-/

namespace Rayzor.Library.Interleaving

universe u v w

structure Config (Agent : Type u) (Shared : Type v) (Phase : Type w) where
  shared : Shared
  phase : Agent → Phase

variable {Agent : Type u} {Shared : Type v} {Phase : Type w} [DecidableEq Agent]

/-- What an agent may do: from the shared state and its phase to new ones. -/
abbrev Protocol (Agent : Type u) (Shared : Type v) (Phase : Type w) :=
  Agent → Shared → Phase → Shared → Phase → Prop

def Config.move (config : Config Agent Shared Phase) (agent : Agent) (shared : Shared)
    (phase : Phase) : Config Agent Shared Phase :=
  ⟨shared, Function.update config.phase agent phase⟩

inductive Step (protocol : Protocol Agent Shared Phase)
    (allowed : Config Agent Shared Phase → Agent → Prop) :
    Config Agent Shared Phase → Config Agent Shared Phase → Prop
  | mk {config : Config Agent Shared Phase} {agent : Agent} {shared : Shared} {phase : Phase} :
      allowed config agent → protocol agent config.shared (config.phase agent) shared phase →
      Step protocol allowed config (config.move agent shared phase)

abbrev Reaches (protocol : Protocol Agent Shared Phase)
    (allowed : Config Agent Shared Phase → Agent → Prop) :
    Config Agent Shared Phase → Config Agent Shared Phase → Prop :=
  Relation.ReflTransGen (Step protocol allowed)

def anyStep (_ : Config Agent Shared Phase) (_ : Agent) : Prop := True

variable {protocol : Protocol Agent Shared Phase}
  {allowed : Config Agent Shared Phase → Agent → Prop}

theorem Reaches.invariant {start config : Config Agent Shared Phase}
    {holds : Config Agent Shared Phase → Prop} (reaches : Reaches protocol allowed start config)
    (initially : holds start)
    (kept : ∀ (config : Config Agent Shared Phase) (agent : Agent) (shared : Shared)
      (phase : Phase), holds config → allowed config agent →
      protocol agent config.shared (config.phase agent) shared phase →
      holds (config.move agent shared phase)) : holds config := by
  induction reaches with
  | refl => exact initially
  | tail _ step before =>
      cases step with
      | mk isAllowed acts => exact kept _ _ _ _ before isAllowed acts

/-- A run goes on with one more step that is allowed. -/
theorem Reaches.next {start config : Config Agent Shared Phase} {shared : Shared} {phase : Phase}
    (reaches : Reaches protocol allowed start config) (agent : Agent)
    (isAllowed : allowed config agent)
    (acts : protocol agent config.shared (config.phase agent) shared phase) :
    Reaches protocol allowed start (config.move agent shared phase) :=
  Relation.ReflTransGen.tail reaches (Step.mk isAllowed acts)

/-- A run goes on with one more step. -/
theorem Reaches.then {start config : Config Agent Shared Phase} {shared : Shared} {phase : Phase}
    (reaches : Reaches protocol anyStep start config) (agent : Agent)
    (acts : protocol agent config.shared (config.phase agent) shared phase) :
    Reaches protocol anyStep start (config.move agent shared phase) :=
  reaches.next agent trivial acts

@[simp] theorem shared_move (config : Config Agent Shared Phase) (agent : Agent)
    (shared : Shared) (phase : Phase) : (config.move agent shared phase).shared = shared := rfl

@[simp] theorem phase_move_self (config : Config Agent Shared Phase) (agent : Agent)
    (shared : Shared) (phase : Phase) :
    (config.move agent shared phase).phase agent = phase := by
  exact Function.update_self agent phase config.phase

theorem phase_move_of_ne (config : Config Agent Shared Phase) {agent other : Agent}
    (differs : other ≠ agent) (shared : Shared) (phase : Phase) :
    (config.move agent shared phase).phase other = config.phase other := by
  exact Function.update_of_ne differs phase config.phase

/-- Where an agent stands after a step. -/
theorem phase_move (config : Config Agent Shared Phase) (agent other : Agent) (shared : Shared)
    (phase : Phase) : (config.move agent shared phase).phase other =
      if other = agent then phase else config.phase other := by
  split_ifs with same
  · rw [same, phase_move_self]
  · exact phase_move_of_ne config same shared phase

section

variable [Fintype Agent]

def count (config : Config Agent Shared Phase) (counts : Phase → Bool) : Nat :=
  (Finset.univ.filter fun agent => counts (config.phase agent) = true).card

theorem count_move (config : Config Agent Shared Phase) (agent : Agent) (shared : Shared)
    (phase : Phase) (counts : Phase → Bool) :
    count (config.move agent shared phase) counts + (counts (config.phase agent)).toNat =
      count config counts + (counts phase).toNat := by
  have split : ∀ (phases : Agent → Phase),
      (Finset.univ.filter fun other => counts (phases other) = true).card =
        ((Finset.univ.erase agent).filter fun other => counts (phases other) = true).card +
          (counts (phases agent)).toNat := by
    intro phases
    rw [← Finset.insert_erase (Finset.mem_univ agent), Finset.filter_insert,
      Finset.erase_insert (Finset.notMem_erase agent _)]
    cases isCounted : counts (phases agent) with
    | true =>
        rw [if_pos rfl, Finset.card_insert_of_notMem]
        · rfl
        · exact fun isIn => Finset.notMem_erase agent _ (Finset.mem_of_mem_filter agent isIn)
    | false =>
        rw [if_neg Bool.false_ne_true]
        rfl
  have others : ((Finset.univ.erase agent).filter fun other =>
      counts ((config.move agent shared phase).phase other) = true) =
        (Finset.univ.erase agent).filter fun other => counts (config.phase other) = true := by
    refine Finset.filter_congr fun other isOther => ?_
    rw [phase_move_of_ne config (Finset.ne_of_mem_erase isOther)]
  rw [count, count, split, split config.phase, others, phase_move_self]
  omega

omit [DecidableEq Agent] in
theorem count_eq_zero {config : Config Agent Shared Phase} {counts : Phase → Bool}
    (none : count config counts = 0) (agent : Agent) : counts (config.phase agent) = false := by
  rw [count, Finset.card_eq_zero, Finset.filter_eq_empty_iff] at none
  exact Bool.eq_false_iff.mpr (none (Finset.mem_univ agent))

omit [DecidableEq Agent] in
theorem count_pos {config : Config Agent Shared Phase} {counts : Phase → Bool} {agent : Agent}
    (isCounted : counts (config.phase agent) = true) : 0 < count config counts :=
  Finset.card_pos.mpr ⟨agent, Finset.mem_filter.mpr ⟨Finset.mem_univ agent, isCounted⟩⟩

end

end Rayzor.Library.Interleaving
