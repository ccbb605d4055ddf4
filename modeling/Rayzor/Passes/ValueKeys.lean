import Rayzor.Ssa.Equations

/-!
Contract: the keys the two value-numbering passes compare instructions by, and
what it means that two instructions have the same key.
-/

namespace Rayzor.Passes.ValueNumbering

open Ir Interp Library Ssa

/-- The text a key is printed to, as its parts. Result types are not in it, nor
is the type a cast or a load of a global starts from. -/
inductive ValueKey where
  | binop (op : BinaryOp) (left right : IrId)
  | unop (op : UnaryOp) (operand : IrId)
  | cmp (op : CompareOp) (left right : IrId)
  | cast (src : IrId) (toTy : IrType)
  | loadGlobal (globalId : IrGlobalId)
  deriving DecidableEq

def isCommutative : BinaryOp → Bool
  | .add | .mul | .fadd | .fmul | .and | .or | .xor => true
  | _ => false

/-- Commutative operations are keyed with the lower operand first. -/
def sortOperands (op : BinaryOp) (left right : IrId) : IrId × IrId :=
  if isCommutative op ∧ right < left then (right, left) else (left, right)

def keyWith (name : IrId → IrId) : IrInstruction → Option ValueKey
  | .binOp _ op left right =>
      let sorted := sortOperands op (name left) (name right)
      some (.binop op sorted.1 sorted.2)
  | .unOp _ op operand => some (.unop op (name operand))
  | .cmp _ op left right => some (.cmp op (name left) (name right))
  | .cast _ src _ toTy => some (.cast (name src) toTy)
  | .loadGlobal _ globalId _ => some (.loadGlobal globalId)
  | _ => none

/-- The word a keyed instruction assigns, given the globals as they stand. -/
def operation (decl : Decl) (get : IrId → Word) (globals : IrGlobalId → BitVec 64) :
    IrInstruction → Option (Except Fault Word)
  | .loadGlobal _ globalId ty =>
      some (.ok ⟨loadGlobalMt ty, canon (globals globalId) (loadGlobalMt ty)⟩)
  | inst => pureValue decl get inst

/-- An instruction with the types another one of its kind names in its text. -/
def readAs : IrInstruction → IrInstruction → IrInstruction
  | .cast _ _ fromTy _, .cast dest src _ toTy => .cast dest src fromTy toTy
  | .loadGlobal _ _ ty, .loadGlobal dest globalId _ => .loadGlobal dest globalId ty
  | _, inst => inst

section Keyed

variable {E : Type} {module : IrModule} {host : Host E} {decl : Decl} {get : IrId → Word}
  {name name' : IrId → IrId} {inst inst' : IrInstruction} {key : ValueKey}

theorem writes_of_key (keyed : keyWith name inst = some key) :
    ∃ dest, inst.dest = some dest ∧ inst.writes = some dest := by
  cases inst
  all_goals first
    | cases keyed
      done
    | exact ⟨_, rfl, rfl⟩

theorem operation_isSome (keyed : keyWith name inst = some key)
    (globals : IrGlobalId → BitVec 64) : (operation decl get globals inst).isSome := by
  cases inst
  all_goals first
    | rfl
    | cases keyed

theorem eval_of_operation {value : Except Fault Word} {world : World E}
    (computes : operation decl get world.globals inst = some value) (site : Site) :
    eval module host decl site get inst world = computing world value := by
  cases inst
  case loadGlobal =>
    cases computes
    rfl
  all_goals
    simp only [operation] at computes
    exact eval_of_pure computes site world

theorem isPure_of_key (keyed : keyWith name inst = some key)
    (local_ : ∀ globalId, key ≠ .loadGlobal globalId) (get : IrId → Word) :
    (pureValue decl get inst).isSome := by
  cases inst
  case loadGlobal =>
    cases keyed
    exact absurd rfl (local_ _)
  all_goals first
    | rfl
    | cases keyed

end Keyed

instance : Fintype Mt where
  elems := {.i8, .i16, .i32, .i64, .f32, .f64, .v128}
  complete := by
    intro mt
    cases mt <;> decide

section Swap

variable {op : BinaryOp} {ty : IrType} {left right : Mt}

theorem expectedMt_scalar (ty : IrType) : expectedMt ty ≠ .v128 := by
  cases ty <;> simp [expectedMt]

/-- Swapping the operands of a commutative operation changes neither whether it
is done in floating point nor how each operand is converted. -/
theorem operandConv_swap (ty : IrType) (commutes : isCommutative op = true) (leftScalar : left ≠ .v128)
    (rightScalar : right ≠ .v128) :
    usesFloat op (operationMt op (expectedMt ty) left right) left right =
        usesFloat op (operationMt op (expectedMt ty) right left) right left ∧
      operandConv op ty (operationMt op (expectedMt ty) left right)
          (usesFloat op (operationMt op (expectedMt ty) left right) left right) left right =
        operandConv op ty (operationMt op (expectedMt ty) right left)
          (usesFloat op (operationMt op (expectedMt ty) right left) right left) left right := by
  have notShr : (op == .shr) = false := by cases op <;> first | rfl | cases commutes
  have scalar := expectedMt_scalar ty
  simp only [operandConv, operationMt, usesFloat, notShr]
  generalize isSigned ty = signed
  generalize isUnsigned ty = unsigned
  generalize expectedMt ty = expected at scalar
  generalize integerOnly op = integer
  generalize floatNamed op = named
  clear commutes notShr
  revert left right expected signed unsigned integer named
  decide +kernel

/-- In integer arithmetic both operands arrive at the type the result has. -/
theorem operandMt_swap (ty : IrType) (commutes : isCommutative op = true) (leftScalar : left ≠ .v128)
    (rightScalar : right ≠ .v128) :
    let opTy := operationMt op (expectedMt ty) left right
    let useFloat := usesFloat op opTy left right
    let a := ((operandConv op ty opTy useFloat left right).map Conv.target).getD left
    let b := ((operandConv op ty opTy useFloat right left).map Conv.target).getD right
    ¬(useFloat = true ∧ a.isFloat = true ∧ b.isFloat = true) →
      (if a.isInt then a else opTy) =
        if b.isInt then b else operationMt op (expectedMt ty) right left := by
  have notShr : (op == .shr) = false := by cases op <;> first | rfl | cases commutes
  have scalar := expectedMt_scalar ty
  simp only [operandConv, operationMt, usesFloat, notShr]
  generalize isSigned ty = signed
  generalize isUnsigned ty = unsigned
  generalize expectedMt ty = expected at scalar
  generalize integerOnly op = integer
  generalize floatNamed op = named
  clear commutes notShr
  revert left right expected signed unsigned integer named
  decide +kernel

theorem ibin_swap (commutes : isCommutative op = true) (signed : Bool) (mt : Mt)
    (a b : BitVec 64) : ibin (intOp signed op) mt a b = ibin (intOp signed op) mt b a := by
  cases op
  all_goals first
    | cases commutes
      done
    | simp only [ibin, intOp, BitVec.add_comm, BitVec.mul_comm, BitVec.and_comm, BitVec.or_comm,
        BitVec.xor_comm]

theorem fbin_swap (commutes : isCommutative op = true) (float : integerOnly op = false) (mt : Mt)
    (a b : BitVec 64) : fbin (floatOp op) mt a b = fbin (floatOp op) mt b a := by
  cases op
  all_goals first
    | cases commutes
      done
    | cases float
      done
    | simp only [fbin, floatOp, floatOperation, Binary.add_comm, Binary.mul_comm]

theorem binop_swap {left right result : Word} (commutes : isCommutative op = true)
    (computed : binop ty op left right = .ok result) : binop ty op right left = .ok result := by
  unfold binop at computed ⊢
  split at computed
  · cases computed
  rename_i vector
  rw [if_neg fun swapped => vector swapped.symm]
  simp only [not_or] at vector
  obtain ⟨sameFloat, leftConv⟩ := operandConv_swap ty commutes vector.1 vector.2
  obtain ⟨-, rightConv⟩ := operandConv_swap ty commutes vector.2 vector.1
  have sameMt := operandMt_swap ty commutes vector.1 vector.2
  obtain ⟨a, leftConverted, computed⟩ := bind_eq_ok.mp computed
  obtain ⟨b, rightConverted, computed⟩ := bind_eq_ok.mp computed
  simp only [← coerce_mt leftConverted, ← coerce_mt rightConverted] at sameMt
  simp only [← sameFloat] at rightConv leftConv ⊢
  refine bind_eq_ok.mpr ⟨b, ?_, bind_eq_ok.mpr ⟨a, ?_, ?_⟩⟩
  · rw [rightConv]
    exact rightConverted
  · rw [← leftConv]
    exact leftConverted
  split at computed
  case isTrue inFloat =>
    rw [if_pos ⟨inFloat.1, inFloat.2.2, inFloat.2.1⟩]
    obtain ⟨wideA, widenedA, computed⟩ := bind_eq_ok.mp computed
    obtain ⟨wideB, widenedB, computed⟩ := bind_eq_ok.mp computed
    have float : integerOnly op = false := by
      have uses := inFloat.1
      simp only [usesFloat, Bool.and_eq_true, Bool.not_eq_true'] at uses
      exact uses.1
    simp only [Or.comm (a := b.mt = Mt.f64)]
    refine bind_eq_ok.mpr ⟨wideB, widenedB, bind_eq_ok.mpr ⟨wideA, widenedA, ?_⟩⟩
    rw [fbin_swap commutes float]
    exact computed
  case isFalse inInteger =>
    rw [if_neg fun swapped => inInteger ⟨swapped.1, swapped.2.2, swapped.2.1⟩]
    rw [← sameMt inInteger]
    obtain ⟨bits, computedBits, computed⟩ := bind_eq_ok.mp computed
    refine bind_eq_ok.mpr ⟨bits, ?_, computed⟩
    rw [ibin_swap commutes]
    exact computedBits

end Swap

theorem sortOperands_eq {op : BinaryOp} {left right left' right' : IrId}
    (same : sortOperands op left right = sortOperands op left' right') :
    left = left' ∧ right = right' ∨
      isCommutative op = true ∧ left = right' ∧ right = left' := by
  unfold sortOperands at same
  split_ifs at same with first second second
  all_goals
    simp only [Prod.mk.injEq] at same
    tauto

section SameKey

variable {decl : Decl} {get : IrId → Word} {globals : IrGlobalId → BitVec 64}
  {name name' : IrId → IrId} {inst inst' : IrInstruction} {key : ValueKey} {word : Word}

theorem binopWord_of_same_key {op : BinaryOp} {left right left' right' : IrId} {ty : IrType}
    (sorted : sortOperands op (name left) (name right) =
      sortOperands op (name' left') (name' right'))
    (leftNamed : get (name left) = get left) (rightNamed : get (name right) = get right)
    (leftNamed' : get (name' left') = get left') (rightNamed' : get (name' right') = get right')
    (computed : binop ty op (get left') (get right') = .ok word) :
    binop ty op (get left) (get right) = .ok word := by
  rcases sortOperands_eq sorted with ⟨sameLeft, sameRight⟩ | ⟨commutes, crossLeft, crossRight⟩
  · rw [← leftNamed, ← rightNamed, sameLeft, sameRight, leftNamed', rightNamed']
    exact computed
  · rw [← leftNamed, ← rightNamed, crossLeft, crossRight, leftNamed', rightNamed']
    exact binop_swap commutes computed

/-- From the operands of an instruction, read at the types of another one with
the same key, comes the word the other one computes. -/
theorem operation_of_same_key (keyed : keyWith name inst = some key)
    (keyed' : keyWith name' inst' = some key)
    (named : ∀ reg ∈ inst.uses, get (name reg) = get reg)
    (named' : ∀ reg ∈ inst'.uses, get (name' reg) = get reg)
    (computed : operation decl get globals inst' = some (.ok word)) :
    operation decl get globals (readAs inst' inst) = some (.ok word) := by
  cases inst
  case binOp dest op left right =>
    cases keyed
    cases inst'
    case binOp dest' op' left' right' =>
      simp only [keyWith, Option.some.injEq, ValueKey.binop.injEq] at keyed'
      obtain ⟨rfl, sameLeft, sameRight⟩ := keyed'
      simp only [IrInstruction.uses, List.mem_cons, List.not_mem_nil, or_false,
        forall_eq_or_imp, forall_eq] at named named'
      simp only [operation, readAs, pureValue, Option.some.injEq, bind_eq_ok] at computed ⊢
      obtain ⟨ty, typed, computed⟩ := computed
      exact ⟨ty, typed, binopWord_of_same_key (Prod.ext sameLeft.symm sameRight.symm)
        named.1 named.2 named'.1 named'.2 computed⟩
    all_goals cases keyed'
  case unOp dest op operand =>
    cases keyed
    cases inst'
    case unOp dest' op' operand' =>
      simp only [keyWith, Option.some.injEq, ValueKey.unop.injEq] at keyed'
      obtain ⟨rfl, same⟩ := keyed'
      simp only [IrInstruction.uses, List.mem_singleton, forall_eq] at named named'
      simp only [operation, readAs, pureValue] at computed ⊢
      rw [← named, ← same, named']
      exact computed
    all_goals cases keyed'
  case cmp dest op left right =>
    cases keyed
    cases inst'
    case cmp dest' op' left' right' =>
      simp only [keyWith, Option.some.injEq, ValueKey.cmp.injEq] at keyed'
      obtain ⟨rfl, sameLeft, sameRight⟩ := keyed'
      simp only [IrInstruction.uses, List.mem_cons, List.not_mem_nil, or_false,
        forall_eq_or_imp, forall_eq] at named named'
      simp only [operation, readAs, pureValue] at computed ⊢
      rw [← named.1, ← named.2, ← sameLeft, ← sameRight, named'.1, named'.2]
      exact computed
    all_goals cases keyed'
  case cast dest src fromTy toTy =>
    cases keyed
    cases inst'
    case cast dest' src' fromTy' toTy' =>
      simp only [keyWith, Option.some.injEq, ValueKey.cast.injEq] at keyed'
      obtain ⟨same, rfl⟩ := keyed'
      simp only [IrInstruction.uses, List.mem_singleton, forall_eq] at named named'
      simp only [operation, readAs, pureValue] at computed ⊢
      rw [← named, ← same, named']
      exact computed
    all_goals cases keyed'
  case loadGlobal dest globalId ty =>
    cases keyed
    cases inst'
    case loadGlobal dest' globalId' ty' =>
      simp only [keyWith, Option.some.injEq, ValueKey.loadGlobal.injEq] at keyed'
      subst keyed'
      exact computed
    all_goals cases keyed'
  all_goals cases keyed

end SameKey

end Rayzor.Passes.ValueNumbering
