import Mathlib

/-!
Contract: trees of binary operators under a table of precedences.
-/

namespace Rayzor.Library

universe u v

inductive OperatorTree (Operator : Type u) (Operand : Type v) where
  | operand (value : Operand)
  | node (left : OperatorTree Operator Operand) (operator : Operator)
      (right : OperatorTree Operator Operand)

/-- A table: how tight an operator binds, and whether operators of its level group from the
right, which is the same for all operators of a level. -/
structure Precedences (Operator : Type u) where
  level : Operator → Nat
  fromRight : Operator → Bool
  uniform : ∀ {first second : Operator}, level first = level second →
    fromRight first = fromRight second

namespace Precedences

variable {Operator : Type u} (table : Precedences Operator)

/-- `inner` may be the root of the left operand of `outer`. -/
def MayBeLeft (inner outer : Operator) : Prop :=
  if table.fromRight outer then table.level outer < table.level inner
  else table.level outer ≤ table.level inner

/-- `inner` may be the root of the right operand of `outer`. -/
def MayBeRight (inner outer : Operator) : Prop :=
  if table.fromRight outer then table.level outer ≤ table.level inner
  else table.level outer < table.level inner

variable {table} {inner outer : Operator}

theorem MayBeLeft.le (mayBe : table.MayBeLeft inner outer) :
    table.level outer ≤ table.level inner := by
  rw [MayBeLeft] at mayBe
  split_ifs at mayBe <;> omega

theorem MayBeRight.le (mayBe : table.MayBeRight inner outer) :
    table.level outer ≤ table.level inner := by
  rw [MayBeRight] at mayBe
  split_ifs at mayBe <;> omega

/-- Of two operators only one can be above the other when `first` comes first. -/
theorem not_mayBeLeft_of_mayBeRight {first second : Operator}
    (right : table.MayBeRight second first) : ¬ table.MayBeLeft first second := by
  intro left
  have same : table.level first = table.level second := by
    have below := left.le
    have above := right.le
    omega
  rw [MayBeRight] at right
  rw [MayBeLeft, table.uniform same.symm] at left
  split_ifs at left right <;> omega

theorem MayBeLeft.of_le {tighter : Operator} (mayBe : table.MayBeLeft inner outer)
    (le : table.level inner ≤ table.level tighter) : table.MayBeLeft tighter outer := by
  rw [MayBeLeft] at mayBe ⊢
  split_ifs at mayBe ⊢ <;> omega

theorem MayBeRight.of_le {tighter : Operator} (mayBe : table.MayBeRight inner outer)
    (le : table.level inner ≤ table.level tighter) : table.MayBeRight tighter outer := by
  rw [MayBeRight] at mayBe ⊢
  split_ifs at mayBe ⊢ <;> omega

end Precedences

namespace OperatorTree

variable {Operator : Type u} {Operand : Type v} {table : Precedences Operator}
  {tree left right : OperatorTree Operator Operand} {operator : Operator}

def operands : OperatorTree Operator Operand → List Operand
  | .operand value => [value]
  | .node left _ right => left.operands ++ right.operands

def operators : OperatorTree Operator Operand → List Operator
  | .operand _ => []
  | .node left operator right => left.operators ++ operator :: right.operators

def root : OperatorTree Operator Operand → Option Operator
  | .operand _ => none
  | .node _ operator _ => some operator

def Respects (table : Precedences Operator) : OperatorTree Operator Operand → Prop
  | .operand _ => True
  | .node left operator right =>
      (∀ inner ∈ left.root, table.MayBeLeft inner operator) ∧
      (∀ inner ∈ right.root, table.MayBeRight inner operator) ∧
      left.Respects table ∧ right.Respects table

theorem length_operands (tree : OperatorTree Operator Operand) :
    tree.operands.length = tree.operators.length + 1 := by
  induction tree with
  | operand value => rfl
  | node left operator right leftLength rightLength =>
      simp only [operands, operators, List.length_append, List.length_cons]
      omega

namespace Respects

theorem root_le (respects : tree.Respects table) {root : Operator} (isRoot : root ∈ tree.root) :
    ∀ inner ∈ tree.operators, table.level root ≤ table.level inner := by
  induction tree generalizing root with
  | operand value => exact nomatch isRoot
  | node left operator right leftLe rightLe =>
      obtain ⟨rootsLeft, rootsRight, leftRespects, rightRespects⟩ := respects
      cases isRoot
      intro inner member
      -- an operator of a part is at or above the root of the part
      have below {part : OperatorTree Operator Operand} (isPart : inner ∈ part.operators)
          (partLe : ∀ {root}, root ∈ part.root → ∀ inner ∈ part.operators,
            table.level root ≤ table.level inner)
          (rooted : ∀ root ∈ part.root, table.level operator ≤ table.level root) :
          table.level operator ≤ table.level inner := by
        cases part with
        | operand value => exact nomatch isPart
        | node left root right => exact (rooted root rfl).trans (partLe rfl inner isPart)
      rcases List.mem_append.mp member with inLeft | inRest
      · exact below inLeft (leftLe leftRespects) fun root isRoot => (rootsLeft root isRoot).le
      · rcases List.mem_cons.mp inRest with rfl | inRight
        · exact Nat.le_refl _
        · exact below inRight (rightLe rightRespects) fun root isRoot => (rootsRight root isRoot).le

theorem mayBeLeft (respects : (node left operator right).Respects table) :
    ∀ inner ∈ left.operators, table.MayBeLeft inner operator := by
  obtain ⟨rootsLeft, _, leftRespects, _⟩ := respects
  intro inner member
  cases left with
  | operand value => exact nomatch member
  | node first root second =>
      exact (rootsLeft root rfl).of_le (leftRespects.root_le rfl inner member)

theorem mayBeRight (respects : (node left operator right).Respects table) :
    ∀ inner ∈ right.operators, table.MayBeRight inner operator := by
  obtain ⟨_, rootsRight, _, rightRespects⟩ := respects
  intro inner member
  cases right with
  | operand value => exact nomatch member
  | node first root second =>
      exact (rootsRight root rfl).of_le (rightRespects.root_le rfl inner member)

theorem not_longer {left' right' : OperatorTree Operator Operand} {operator' : Operator}
    (respects : (node left operator right).Respects table)
    (respects' : (node left' operator' right').Respects table)
    (same : (node left operator right).operators = (node left' operator' right').operators) :
    ¬ left.operators.length < left'.operators.length := by
  intro longer
  simp only [operators] at same
  rcases List.append_eq_append_iff.mp same with ⟨between, isLeft', isRest⟩ | ⟨between, isLeft, _⟩
  · cases between with
    | nil =>
        rw [isLeft', List.append_nil] at longer
        exact absurd longer (Nat.lt_irrefl _)
    | cons first between =>
        rw [List.cons_append, List.cons.injEq] at isRest
        obtain ⟨rfl, isRight⟩ := isRest
        have above := respects'.mayBeLeft operator (by simp [isLeft'])
        have below := respects.mayBeRight operator' (by simp [isRight])
        exact Precedences.not_mayBeLeft_of_mayBeRight below above
  · have lengths := congrArg List.length isLeft
    rw [List.length_append] at lengths
    omega

theorem unique (respects : tree.Respects table) :
    ∀ {other : OperatorTree Operator Operand}, other.Respects table →
      tree.operands = other.operands → tree.operators = other.operators → tree = other := by
  induction tree with
  | operand value =>
      intro other _ sameOperands sameOperators
      cases other with
      | operand value' =>
          simp only [operands, List.cons.injEq, and_true] at sameOperands
          rw [sameOperands]
      | node left' operator' right' => simp [operators] at sameOperators
  | node left operator right leftUnique rightUnique =>
      intro other otherRespects sameOperands sameOperators
      cases other with
      | operand value' => simp [operators] at sameOperators
      | node left' operator' right' =>
          have lengths : left.operators.length = left'.operators.length := by
            have notLonger := respects.not_longer otherRespects sameOperators
            have notShorter := otherRespects.not_longer respects sameOperators.symm
            omega
          obtain ⟨leftSame, restSame⟩ := List.append_inj sameOperators lengths
          rw [List.cons.injEq] at restSame
          obtain ⟨leftOperands, rightOperands⟩ := List.append_inj sameOperands (by
            rw [length_operands, length_operands, lengths])
          rw [leftUnique respects.2.2.1 otherRespects.2.2.1 leftOperands leftSame,
            rightUnique respects.2.2.2 otherRespects.2.2.2 rightOperands restSame.2, restSame.1]

end Respects

end OperatorTree

end Rayzor.Library
