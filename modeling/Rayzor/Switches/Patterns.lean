import Rayzor.Library.OrdMap

/-!
Contract: the patterns of switch cases and the values they match.

Owns: patterns, values, the test a pattern is lowered to, and the heads of a pattern, which decide
the values of an enum.
-/

namespace Rayzor.Switches

abbrev TypeId := Nat

abbrev SymbolId := Nat

abbrev InternedString := Nat

inductive HirLiteral where
  | int (value : Int)
  | float (value : Float)
  | string (value : InternedString)
  | bool (value : Bool)
  | regex (pattern flags : InternedString)

mutual

inductive HirPattern where
  | variable (name : InternedString) (symbol : SymbolId)
  | wildcard
  | literal (value : HirLiteral)
  | constructor (enumType : TypeId) (variant : InternedString) (fields : List HirPattern)
  | tuple (elements : List HirPattern)
  | array (elements : List HirPattern) (rest : Option HirPattern)
  | object (fields : List HirFieldPattern) (rest : Bool)
  | typed (pattern : HirPattern) (ty : TypeId)
  | or (alternatives : List HirPattern)
  | guard (pattern : HirPattern)

inductive HirFieldPattern where
  | mk (name : InternedString) (pattern : HirPattern)

end

structure HirMatchCase where
  patterns : List HirPattern
  hasGuard : Bool

inductive Value where
  | null
  | literal (value : HirLiteral)
  | enum (variant : InternedString) (fields : List Value)
  | tuple (elements : List Value)
  | array (elements : List Value)
  | object (fields : List (InternedString × Value))
  | reference (identity : Nat)

/-- Literals are compared as the machine does: floats by their order, texts by their contents. -/
def HirLiteral.equal : HirLiteral → HirLiteral → Bool
  | .int value, .int other => value == other
  | .float value, .float other => value == other
  | .string value, .string other => value == other
  | .bool value, .bool other => value == other
  | .regex pattern flags, .regex pattern' flags' => pattern == pattern' && flags == flags'
  | _, _ => false

def fieldOf (name : InternedString) : List (InternedString × Value) → Option Value
  | [] => none
  | (other, value) :: fields => if other = name then some value else fieldOf name fields

mutual

/-- The test of a pattern, where a guard possibly fails. A constructor tests the fields it has
patterns for, and a type annotation nothing. -/
def HirPattern.holds : HirPattern → Value → Bool
  | .variable _ _, _ => true
  | .wildcard, _ => true
  | .literal value, .literal other => value.equal other
  | .constructor _ variant fields, .enum other values =>
      variant == other && fieldsHold fields values
  | .tuple elements, .tuple values => fieldsHold elements values
  | .array elements rest, .array values =>
      fieldsHold elements values && (rest.isSome || elements.length == values.length)
  | .object fields _, .object values => namedHold fields values
  | .typed pattern _, value => pattern.holds value
  | .or alternatives, value => someHolds alternatives value
  | .guard _, _ => false
  | _, _ => false

def fieldsHold : List HirPattern → List Value → Bool
  | [], _ => true
  | _ :: _, [] => false
  | pattern :: patterns, value :: values => pattern.holds value && fieldsHold patterns values

def someHolds : List HirPattern → Value → Bool
  | [], _ => false
  | pattern :: patterns, value => pattern.holds value || someHolds patterns value

def namedHold : List HirFieldPattern → List (InternedString × Value) → Bool
  | [], _ => true
  | .mk name pattern :: fields, values =>
      (match fieldOf name values with
        | some value => pattern.holds value
        | none => false) && namedHold fields values

end

/-- What a pattern comes to at its head: anything, or a variant with patterns for its fields. -/
inductive Head where
  | anything
  | variant (name : InternedString) (fields : List HirPattern)

mutual

def HirPattern.heads : HirPattern → List Head
  | .variable _ _ | .wildcard => [.anything]
  | .constructor _ variant fields => [.variant variant fields]
  | .typed pattern _ => pattern.heads
  | .or alternatives => allHeads alternatives
  | .literal _ | .tuple _ | .array _ _ | .object _ _ | .guard _ => []

def allHeads : List HirPattern → List Head
  | [] => []
  | pattern :: patterns => pattern.heads ++ allHeads patterns

end

def Head.holds (head : Head) (name : InternedString) (values : List Value) : Bool :=
  match head with
  | .anything => true
  | .variant other fields => other == name && fieldsHold fields values

mutual

theorem holds_enum_iff (name : InternedString) (values : List Value) : ∀ pattern : HirPattern,
    pattern.holds (.enum name values) = pattern.heads.any (·.holds name values)
  | .variable _ _ => rfl
  | .wildcard => rfl
  | .constructor _ variant fields => by
      simp only [HirPattern.holds, HirPattern.heads, List.any_cons, List.any_nil, Bool.or_false]
      rfl
  | .typed pattern _ => by
      simp only [HirPattern.holds, HirPattern.heads]
      exact holds_enum_iff name values pattern
  | .or alternatives => by
      simp only [HirPattern.holds, HirPattern.heads]
      exact someHolds_enum_iff name values alternatives
  | .literal _ => rfl
  | .tuple _ => rfl
  | .array _ _ => rfl
  | .object _ _ => rfl
  | .guard _ => rfl

theorem someHolds_enum_iff (name : InternedString) (values : List Value) :
    ∀ patterns : List HirPattern,
    someHolds patterns (.enum name values) = (allHeads patterns).any (·.holds name values)
  | [] => rfl
  | pattern :: patterns => by
      rw [someHolds, allHeads, List.any_append, holds_enum_iff name values pattern,
        someHolds_enum_iff name values patterns]

end

end Rayzor.Switches
