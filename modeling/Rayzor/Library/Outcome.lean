import Mathlib

/-!
Contract: what a computation yields when it may refuse its input.

Owns: a predicate on outcomes that allows some failures and excludes the others,
and its rules for the monad of failures.
-/

namespace Rayzor.Library

universe u v

variable {ε : Type u} {α β : Type v} {allowed : ε → Prop}

/-- The value, when there is one, is as required; every failure is an allowed one. -/
def Yields (allowed : ε → Prop) (required : α → Prop) : Except ε α → Prop
  | .ok value => required value
  | .error failure => allowed failure

namespace Yields

theorem ok {required : α → Prop} {value : α} (holds : required value) :
    Yields allowed required (.ok value) := holds

theorem error {required : α → Prop} {failure : ε} (isAllowed : allowed failure) :
    Yields allowed required (Except.error failure : Except ε α) := isAllowed

theorem bind {required : α → Prop} {required' : β → Prop} {outcome : Except ε α}
    {next : α → Except ε β} (first : Yields allowed required outcome)
    (later : ∀ value, required value → Yields allowed required' (next value)) :
    Yields allowed required' (outcome >>= next) := by
  cases outcome with
  | ok value => exact later value first
  | error failure => exact first

theorem mono {required required' : α → Prop} {outcome : Except ε α}
    (yields : Yields allowed required outcome)
    (weaker : ∀ value, required value → required' value) : Yields allowed required' outcome := by
  cases outcome with
  | ok value => exact weaker value yields
  | error failure => exact yields

theorem weaken {allowed' : ε → Prop} {required : α → Prop} {outcome : Except ε α}
    (yields : Yields allowed required outcome) (weaker : ∀ failure, allowed failure → allowed' failure) :
    Yields allowed' required outcome := by
  cases outcome with
  | ok value => exact yields
  | error failure => exact weaker failure yields

theorem ite {required : α → Prop} {condition : Prop} [Decidable condition]
    {yes no : Except ε α} (ifYes : condition → Yields allowed required yes)
    (ifNo : ¬ condition → Yields allowed required no) :
    Yields allowed required (if condition then yes else no) := by
  split_ifs with holds
  · exact ifYes holds
  · exact ifNo holds

theorem of_eq_ok {required : α → Prop} {outcome : Except ε α} {value : α}
    (yields : Yields allowed required outcome) (isOk : outcome = .ok value) : required value := by
  rw [isOk] at yields
  exact yields

theorem of_eq_error {required : α → Prop} {outcome : Except ε α} {failure : ε}
    (yields : Yields allowed required outcome) (isError : outcome = .error failure) :
    allowed failure := by
  rw [isError] at yields
  exact yields

end Yields

theorem map_eq_ok {outcome : Except ε α} {image : α → β} {result : β} :
    outcome.map image = .ok result ↔ ∃ value, outcome = .ok value ∧ image value = result := by
  cases outcome <;> simp [Except.map]

end Rayzor.Library
