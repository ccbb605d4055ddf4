import Rayzor.Interp.Operators

/-!
Contract: the constant folding pass, measured against execution.

Owns: the folder as it is written, with its two arithmetic panics; the pass over
a function; when a folded `BinOp` or `Cmp` is what the interpreter computes; and
the exact condition on the resolved type and the constants for that.
-/

namespace Rayzor.Passes.ConstantFolding

open Ir Interp Library

/-- The overflow panics of the host language's signed `/` and `%`. -/
inductive FoldPanic where
  | divideOverflow
  | remainderOverflow
  deriving DecidableEq

def epsilon : Datum := Binary.decode .binary64 (2 ^ 52 * 0x3cb)

def f64 (bits : BitVec 64) : Datum := Binary.decode .binary64 bits.toNat

def distance (a b : BitVec 64) : Datum :=
  Binary.absDatum (Binary.decode .binary64 (Binary.sub .binary64 a.toNat b.toNat))

def f64Value (bits : Nat) : Option IrValue := some (.f64 (BitVec.ofNat 64 bits))

def foldInts (op : BinaryOp) (a b : BitVec 32) : Except FoldPanic (Option IrValue) :=
  match op with
  | .add => .ok (some (.i32 (a + b)))
  | .sub => .ok (some (.i32 (a - b)))
  | .mul => .ok (some (.i32 (a * b)))
  | .div =>
      if b = 0 then .ok none
      else if a = BitVec.intMin 32 ∧ b = -1 then .error .divideOverflow
      else .ok (some (.i32 (a.sdiv b)))
  | .rem =>
      if b = 0 then .ok none
      else if a = BitVec.intMin 32 ∧ b = -1 then .error .remainderOverflow
      else .ok (some (.i32 (a.srem b)))
  | .and => .ok (some (.i32 (a &&& b)))
  | .or => .ok (some (.i32 (a ||| b)))
  | .xor => .ok (some (.i32 (a ^^^ b)))
  | .shl => .ok (if b.toNat < 32 then some (.i32 (a <<< b.toNat)) else none)
  | .shr => .ok (if b.toNat < 32 then some (.i32 (a.sshiftRight b.toNat)) else none)
  | _ => .ok none

def foldFloats (op : BinaryOp) (a b : BitVec 64) : Option IrValue :=
  match op with
  | .fadd => f64Value (Binary.add .binary64 a.toNat b.toNat)
  | .fsub => f64Value (Binary.sub .binary64 a.toNat b.toNat)
  | .fmul => f64Value (Binary.mul .binary64 a.toNat b.toNat)
  | .fdiv =>
      if (f64 b).eq (f64 0) then none else f64Value (Binary.div .binary64 a.toNat b.toNat)
  | _ => none

def foldBinaryOp (op : BinaryOp) : IrValue → IrValue → Except FoldPanic (Option IrValue)
  | .i32 a, .i32 b => foldInts op a b
  | .f64 a, .f64 b => .ok (foldFloats op a b)
  | _, _ => .ok none

def foldComparison (op : CompareOp) : IrValue → IrValue → Option IrValue
  | .i32 a, .i32 b =>
      match op with
      | .eq => some (.bool (a == b))
      | .ne => some (.bool (a != b))
      | .lt => some (.bool (a.slt b))
      | .le => some (.bool (a.sle b))
      | .gt => some (.bool (b.slt a))
      | .ge => some (.bool (b.sle a))
      | _ => none
  | .f64 a, .f64 b =>
      match op with
      | .feq => some (.bool ((distance a b).lt epsilon))
      | .fne => some (.bool (epsilon.le (distance a b)))
      | .flt => some (.bool ((f64 a).lt (f64 b)))
      | .fle => some (.bool ((f64 a).le (f64 b)))
      | .fgt => some (.bool ((f64 b).lt (f64 a)))
      | .fge => some (.bool ((f64 b).le (f64 a)))
      | _ => none
  | .bool a, .bool b =>
      match op with
      | .eq => some (.bool (a == b))
      | .ne => some (.bool (a != b))
      | _ => none
  | _, _ => none

/-! ### The pass over a function -/

abbrev Constants := OrdMap IrId IrValue

/-- The first pass: every `Const`, in block order, later ones winning. -/
def collectConstants (function : IrFunction) : Constants :=
  (function.cfg.blocks.values.flatMap (·.instructions)).foldl (fun constants inst =>
    match inst with
    | .const dest value => constants.insert dest value
    | _ => constants) .empty

/-- What the second pass makes of one instruction. -/
def foldInstruction (constants : Constants) (inst : IrInstruction) :
    Except FoldPanic (Option (IrId × IrValue)) :=
  match inst with
  | .binOp dest op left right =>
      match constants.get? left, constants.get? right with
      | some leftValue, some rightValue => do
          let folded ← foldBinaryOp op leftValue rightValue
          .ok (folded.map (dest, ·))
      | _, _ => .ok none
  | .cmp dest op left right =>
      match constants.get? left, constants.get? right with
      | some leftValue, some rightValue =>
          .ok ((foldComparison op leftValue rightValue).map (dest, ·))
      | _, _ => .ok none
  | _ => .ok none

def foldInstructions (constants : Constants) :
    List IrInstruction → Except FoldPanic (Constants × List IrInstruction)
  | [] => .ok (constants, [])
  | inst :: rest => do
      match ← foldInstruction constants inst with
      | some (dest, value) =>
          let (constants, folded) ← foldInstructions (constants.insert dest value) rest
          .ok (constants, .const dest value :: folded)
      | none =>
          let (constants, folded) ← foldInstructions constants rest
          .ok (constants, inst :: folded)

def foldBlocks (constants : Constants) :
    List (IrBlockId × IrBasicBlock) → Except FoldPanic (List (IrBlockId × IrBasicBlock))
  | [] => .ok []
  | (id, block) :: rest => do
      let (constants, instructions) ← foldInstructions constants block.instructions
      let folded ← foldBlocks constants rest
      .ok ((id, { block with instructions }) :: folded)

/-- `ConstantFoldingPass::run_on_module`, on one function: the blocks it leaves. -/
def foldFunction (function : IrFunction) : Except FoldPanic (List (IrBlockId × IrBasicBlock)) :=
  foldBlocks (collectConstants function) function.cfg.blocks.entries

/-! ### What it means for folding to agree with execution -/

/-- The word a register with a known constant holds. -/
def constantOf (constants : Constants) (reg : IrId) : Word :=
  ((constants.get? reg).bind constantWord).getD default

/-- The interpreter on the instruction as it stood, its operands holding the
constants the pass knows for them. -/
def evalOriginal (function : IrFunction) (constants : Constants) :
    IrInstruction → Option (Except Fault Word)
  | .binOp dest op left right =>
      some (evalBinop function dest op left right (constantOf constants left)
        (constantOf constants right))
  | .cmp _ op left right =>
      some (evalCmp function op left (constantOf constants left) (constantOf constants right))
  | _ => none

/-- The pass gets past the instruction, and if it puts a constant in its place
then that constant is what the interpreter computes. -/
def FoldsFaithfully (function : IrFunction) (constants : Constants) (inst : IrInstruction) :
    Prop :=
  ∃ folded, foldInstruction constants inst = .ok folded ∧
    ∀ dest value, folded = some (dest, value) →
      ∃ word, constantWord value = some word ∧
        evalOriginal function constants inst = some (.ok word)

def afterInstruction (constants : Constants) (inst : IrInstruction) : Constants :=
  match foldInstruction constants inst with
  | .ok (some (dest, value)) => constants.insert dest value
  | _ => constants

/-- A property of every instruction of a list, each with the constants known
when the pass meets it. -/
def AlongPass (holds : Constants → IrInstruction → Prop) :
    Constants → List IrInstruction → Prop
  | _, [] => True
  | constants, inst :: rest =>
      holds constants inst ∧ AlongPass holds (afterInstruction constants inst) rest

def instructionsInOrder (function : IrFunction) : List IrInstruction :=
  function.cfg.blocks.values.flatMap (·.instructions)

/-- The pass finishes on the function, and every constant it puts in place of an
instruction is what the interpreter computes there. -/
def FunctionFoldsFaithfully (function : IrFunction) : Prop :=
  (∃ blocks, foldFunction function = .ok blocks) ∧
    AlongPass (FoldsFaithfully function) (collectConstants function)
      (instructionsInOrder function)

/-! ### The condition -/

def Resolves (ty : Option IrType) (holds : IrType → Prop) : Prop :=
  ∃ resolved, ty = some resolved ∧ holds resolved

/-- Signed 32-bit constants: the type must not be a 64-bit one, and a quotient
or remainder must read the same unsigned unless the type is `I32`. -/
def IntsSafe (ty : Option IrType) (op : BinaryOp) (a b : BitVec 32) : Prop :=
  match op with
  | .add | .sub | .mul | .and | .or | .xor => Resolves ty fun t => expectedMt t ≠ .i64
  | .shl | .shr => b.toNat < 32 → Resolves ty fun t => expectedMt t ≠ .i64
  | .div => b ≠ 0 → ¬(a = BitVec.intMin 32 ∧ b = -1) ∧
      Resolves ty fun t => expectedMt t ≠ .i64 ∧ (isSigned t = true ∨ a.sdiv b = a / b)
  | .rem => b ≠ 0 → ¬(a = BitVec.intMin 32 ∧ b = -1) ∧
      Resolves ty fun t => expectedMt t ≠ .i64 ∧ (isSigned t = true ∨ a.srem b = a % b)
  | _ => True

/-- Double constants: the type must be a float type. -/
def FloatsSafe (ty : Option IrType) (op : BinaryOp) (b : BitVec 64) : Prop :=
  match op with
  | .fadd | .fsub | .fmul => Resolves ty fun t => (expectedMt t).isInt = false
  | .fdiv => (f64 b).eq (f64 0) = false → Resolves ty fun t => (expectedMt t).isInt = false
  | _ => True

def BinopSafe (ty : Option IrType) (op : BinaryOp) : IrValue → IrValue → Prop
  | .i32 a, .i32 b => IntsSafe ty op a b
  | .f64 _, .f64 b => FloatsSafe ty op b
  | _, _ => True

/-- Equality of doubles is folded by distance: equal operands must be finite,
distinct ones a machine epsilon apart, and `FNe` must not see a NaN. -/
def ComparisonSafe (ty : Option IrType) (op : CompareOp) : IrValue → IrValue → Prop
  | .i32 _, .i32 _ =>
      match op with
      | .eq | .ne | .lt | .le | .gt | .ge => ty.isSome
      | _ => True
  | .f64 a, .f64 b =>
      match op with
      | .feq => ty.isSome ∧ (if (f64 a).eq (f64 b) then (f64 a).isFinite = true
          else (distance a b).lt epsilon = false)
      | .fne => ty.isSome ∧ (f64 a).isNan = false ∧ (f64 b).isNan = false ∧
          ((f64 a).eq (f64 b) = true ∨ epsilon.le (distance a b) = true)
      | .flt | .fle | .fgt | .fge => ty.isSome
      | _ => True
  | .bool _, .bool _ =>
      match op with
      | .eq | .ne => ty.isSome
      | _ => True
  | _, _ => True

def FoldSafe (function : IrFunction) (constants : Constants) (inst : IrInstruction) : Prop :=
  match inst with
  | .binOp dest op left right =>
      ∀ leftValue ∈ constants.get? left, ∀ rightValue ∈ constants.get? right,
        BinopSafe (binopType function dest left right) op leftValue rightValue
  | .cmp _ op left right =>
      ∀ leftValue ∈ constants.get? left, ∀ rightValue ∈ constants.get? right,
        ComparisonSafe (cmpType function left) op leftValue rightValue
  | _ => True

/-! ### The interpreter on 32-bit constants -/

def word32 (a : BitVec 32) : Word := ⟨.i32, a.setWidth 64⟩

theorem expectedMt_cases (ty : IrType) :
    expectedMt ty = .i32 ∨ expectedMt ty = .f32 ∨ expectedMt ty = .f64 ∨ expectedMt ty = .i64 := by
  cases ty <;> simp [expectedMt]

theorem binop_word32 {ty : IrType} {op : BinaryOp} (a b : BitVec 32)
    (narrow : expectedMt ty ≠ .i64) (integer : floatNamed op = false) :
    binop ty op (word32 a) (word32 b) =
      (do .ok ⟨.i32, ← ibin (intOp (isSigned ty) op) .i32 (a.setWidth 64) (b.setWidth 64)⟩) := by
  rcases expectedMt_cases ty with expected | expected | expected | expected
  case inr.inr.inr => exact absurd expected narrow
  all_goals
    cases op <;> first
      | exact absurd integer (by decide)
      | simp [binop, word32, expected, operationMt, largerMt, usesFloat, operandConv, finalConv,
          integerOnly, floatNamed, Mt.isInt, Mt.isFloat, Mt.bits]

theorem binop_f64 {ty : IrType} {op : BinaryOp} (a b : BitVec 64)
    (isFloat : (expectedMt ty).isInt = false) (float : floatNamed op = true) :
    binop ty op ⟨.f64, a⟩ ⟨.f64, b⟩ = .ok ⟨.f64, fbin (floatOp op) .f64 a b⟩ := by
  rcases expectedMt_cases ty with expected | expected | expected | expected <;>
    rw [expected] at isFloat
  case inl | inr.inr.inr => cases isFloat
  all_goals
    cases op <;> first
      | exact absurd float (by decide)
      | simp [binop, expected, operationMt, largerMt, usesFloat, operandConv, finalConv, widen,
          integerOnly, floatNamed, Mt.isInt, Mt.isFloat, Mt.bits]

/-- `evalBinop` once the type is looked up. -/
def runBinop (ty : Option IrType) (op : BinaryOp) (left right : Word) :
    Except Fault Word :=
  match ty with
  | none => .error .typeNotFound
  | some ty => binop ty op left right

/-- An integer operation gives a 32-bit result exactly when its type is not a
64-bit one and the operation gives that result at 32 bits. -/
theorem runBinop_word32 {ty : Option IrType} {op : BinaryOp} {a b result : BitVec 32}
    (integer : floatNamed op = false) :
    runBinop ty op (word32 a) (word32 b) = .ok (word32 result) ↔
      Resolves ty fun t => expectedMt t ≠ .i64 ∧
        ibin (intOp (isSigned t) op) .i32 (a.setWidth 64) (b.setWidth 64) =
          .ok (result.setWidth 64) := by
  cases ty with
  | none => simp [runBinop, Resolves]
  | some t =>
      simp only [runBinop, Resolves, Option.some.injEq, exists_eq_left']
      by_cases wide : expectedMt t = .i64
      · have typed : expectedMt t ≠ .i32 := by rw [wide]; decide
        refine iff_of_false (fun computed => ?_) (fun both => both.1 wide)
        have mt := binop_mt (by rw [wide]; rfl) computed
        exact typed mt.symm
      · rw [binop_word32 a b wide integer]
        cases computed : ibin (intOp (isSigned t) op) .i32 (a.setWidth 64) (b.setWidth 64) with
        | error fault => simp
        | ok bits => simp [word32, wide]

theorem ibin_i32 (op : IntOp) (a b result : BitVec 32) :
    ibin op .i32 (a.setWidth 64) (b.setWidth 64) = .ok (result.setWidth 64) ↔
      match op with
      | .add => a + b = result
      | .sub => a - b = result
      | .mul => a * b = result
      | .sdiv => b ≠ 0 ∧ ¬(a = BitVec.intMin 32 ∧ b = -1) ∧ a.sdiv b = result
      | .udiv => b ≠ 0 ∧ a / b = result
      | .srem => b ≠ 0 ∧ a.srem b = result
      | .urem => b ≠ 0 ∧ a % b = result
      | .and => a &&& b = result
      | .or => a ||| b = result
      | .xor => a ^^^ b = result
      | .shl => a <<< (b.toNat % 32) = result
      | .sshr => a.sshiftRight (b.toNat % 32) = result
      | .ushr => a >>> (b.toNat % 32) = result := by
  have zero : b.signExtend 64 = 0 ↔ b = 0 := by
    rw [← signExtend_inj _ 0]
    simp
  have minusOne : b.signExtend 64 = -1 ↔ b = -1 := by
    rw [← signExtend_inj _ (-1)]
    rfl
  have least : a.signExtend 64 = sext (1 <<< (Mt.i32.bits - 1)) .i32 ↔ a = BitVec.intMin 32 := by
    rw [← signExtend_inj _ (BitVec.intMin 32)]
    rfl
  have unsignedZero : b.setWidth 64 = 0 ↔ b = 0 := by
    rw [← setWidth_inj _ 0]
    rfl
  cases op
  case sdiv | udiv | srem | urem =>
    simp only [ibin, sext_i32, zero, minusOne, least, unsignedZero, canon_i32]
    split_ifs <;>
      simp_all [setWidth_inj, low_sdiv, low_srem, low_udiv, low_umod]
    all_goals tauto
  all_goals
    simp only [ibin, sext_i32, canon_i32, bind_ok, Except.ok.injEq, setWidth_inj]
  case add => rw [low_add]
  case sub => rw [low_sub]
  case mul => rw [low_mul]
  case shl => rw [BitVec.shiftLeft_eq', shiftCount, low_shiftLeft]
  case sshr => rw [BitVec.sshiftRight', shiftCount, low_sshiftRight]
  case ushr =>
    rw [BitVec.ushiftRight_eq', shiftCount, low_ushiftRight]
  all_goals simp

theorem Resolves.congr {ty : Option IrType} {first second : IrType → Prop}
    (same : ∀ t, first t ↔ second t) : Resolves ty first ↔ Resolves ty second := by
  simp only [Resolves, same]

/-- The folder and the interpreter agree on two constants: no panic, and a
folded value is the one computed. -/
def Agrees (folded : Except FoldPanic (Option IrValue)) (computed : Except Fault Word) : Prop :=
  ∃ result, folded = .ok result ∧
    ∀ value, result = some value → ∃ word, constantWord value = some word ∧ computed = .ok word

@[simp] theorem agrees_none (computed : Except Fault Word) : Agrees (.ok none) computed :=
  ⟨none, rfl, by simp⟩

@[simp] theorem agrees_error (panic : FoldPanic) (computed : Except Fault Word) :
    ¬Agrees (.error panic) computed := by
  rintro ⟨_, finished, -⟩
  cases finished

theorem agrees_some {value : IrValue} {word : Word} {computed : Except Fault Word}
    (holds : constantWord value = some word) :
    Agrees (.ok (some value)) computed ↔ computed = .ok word := by
  simp [Agrees, holds]

theorem foldInts_agrees (ty : Option IrType) (op : BinaryOp) (a b : BitVec 32) :
    Agrees (foldInts op a b) (runBinop ty op (word32 a) (word32 b)) ↔ IntsSafe ty op a b := by
  have value : ∀ result, constantWord (.i32 result) = some (word32 result) := fun _ => rfl
  cases op <;> simp only [foldInts, IntsSafe, agrees_none]
  case add | sub | mul | and | or | xor =>
    rw [agrees_some (value _), runBinop_word32 rfl]
    refine Resolves.congr fun t => ?_
    rw [intOp, ibin_i32]
    simp
  case shl | shr =>
    split_ifs with small
    · rw [agrees_some (value _), runBinop_word32 rfl]
      have count : b.toNat % 32 = b.toNat := Nat.mod_eq_of_lt small
      rw [forall_prop_of_true small]
      refine Resolves.congr fun t => ?_
      rw [intOp, ibin_i32]
      simp [count]
    · simp [small]
  case div | rem =>
    split_ifs with zero overflow
    · simp [zero]
    · simp [overflow]
    · rw [agrees_some (value _), runBinop_word32 rfl]
      rw [forall_prop_of_true zero, and_iff_right overflow]
      refine Resolves.congr fun t => and_congr_right fun _ => ?_
      cases signed : isSigned t <;> rw [intOp, ibin_i32]
      · exact ⟨fun both => Or.inr both.2.symm,
          fun either => ⟨zero, (either.resolve_left (by decide)).symm⟩⟩
      · first
          | exact iff_of_true ⟨zero, overflow, rfl⟩ (Or.inl rfl)
          | exact iff_of_true ⟨zero, rfl⟩ (Or.inl rfl)

theorem runBinop_f64 {ty : Option IrType} {op : BinaryOp} {a b : BitVec 64}
    (float : floatNamed op = true) :
    runBinop ty op ⟨.f64, a⟩ ⟨.f64, b⟩ = .ok ⟨.f64, fbin (floatOp op) .f64 a b⟩ ↔
      Resolves ty fun t => (expectedMt t).isInt = false := by
  cases ty with
  | none => simp [runBinop, Resolves]
  | some t =>
      simp only [runBinop, Resolves, Option.some.injEq, exists_eq_left']
      cases integer : (expectedMt t).isInt with
      | false => simp [binop_f64 a b integer float]
      | true =>
          refine iff_of_false (fun computed => ?_) (by decide)
          have mt := binop_mt integer computed
          rw [← mt] at integer
          cases integer

theorem foldFloats_agrees (ty : Option IrType) (op : BinaryOp) (a b : BitVec 64) :
    Agrees (.ok (foldFloats op a b)) (runBinop ty op ⟨.f64, a⟩ ⟨.f64, b⟩) ↔
      FloatsSafe ty op b := by
  have folded : ∀ op, floatNamed op = true →
      (Agrees (.ok (some (.f64 (fbin (floatOp op) .f64 a b))))
        (runBinop ty op ⟨.f64, a⟩ ⟨.f64, b⟩) ↔
      Resolves ty fun t => (expectedMt t).isInt = false) := fun op float =>
    (agrees_some rfl).trans (runBinop_f64 float)
  cases op <;> simp only [foldFloats, FloatsSafe, agrees_none]
  case fadd => exact folded .fadd rfl
  case fsub => exact folded .fsub rfl
  case fmul => exact folded .fmul rfl
  case fdiv =>
    cases zero : (f64 b).eq (f64 0) with
    | true => simp
    | false =>
        simp only [Bool.false_eq_true, if_false, forall_const]
        exact folded .fdiv rfl

theorem binopSafe_iff (ty : Option IrType) (op : BinaryOp) (left right : IrValue) :
    Agrees (foldBinaryOp op left right)
        (runBinop ty op ((constantWord left).getD default)
          ((constantWord right).getD default)) ↔
      BinopSafe ty op left right := by
  cases left with
  | i32 a =>
      cases right with
      | i32 b => exact foldInts_agrees ty op a b
      | _ => simp [foldBinaryOp, BinopSafe]
  | f64 a =>
      cases right with
      | f64 b => exact foldFloats_agrees ty op a b
      | _ => simp [foldBinaryOp, BinopSafe]
  | _ => simp [foldBinaryOp, BinopSafe]

/-! ### Comparisons -/

def runCmp (ty : Option IrType) (op : CompareOp) (leftWord rightWord : Word) : Except Fault Word :=
  match ty with
  | none => .error .typeNotFound
  | some ty => Interp.cmp ty op leftWord rightWord

@[simp] theorem truth_mt (value : Bool) : (truth value).mt = .i8 := rfl

theorem truth_inj {a b : Bool} : truth a = truth b ↔ a = b := by
  cases a <;> cases b <;> decide

theorem runCmp_word32 {ty : Option IrType} {op : CompareOp} {cc : IntCc}
    (a b : BitVec 32) (result : Bool) (integer : isFloatCompare op = false)
    (condition : intCc op = some cc) :
    runCmp ty op (word32 a) (word32 b) = .ok (truth result) ↔
      ty.isSome ∧ icmp cc .i32 (a.setWidth 64) (b.setWidth 64) = result := by
  cases ty with
  | none => simp [runCmp]
  | some t =>
      simp [runCmp, Interp.cmp, word32, integer, condition, Mt.isFloat, truth_inj]

theorem icmp_i32 (cc : IntCc) (a b : BitVec 32) :
    icmp cc .i32 (a.setWidth 64) (b.setWidth 64) =
      match cc with
      | .eq => a == b
      | .ne => a != b
      | .slt => a.slt b
      | .sle => a.sle b
      | .sgt => b.slt a
      | .sge => b.sle a
      | .ult => a.ult b
      | .ule => a.ule b
      | .ugt => b.ult a
      | .uge => b.ule a := by
  have held : ∀ x : BitVec 32, canon (x.setWidth 64) .i32 = x.setWidth 64 := fun x => by
    simp [canon_i32]
  have signed : ∀ x : BitVec 32, (x.signExtend 64).toInt = x.toInt := fun x =>
    BitVec.toInt_signExtend_of_le (by decide)
  have unsigned : ∀ x : BitVec 32, (x.setWidth 64).toNat = x.toNat := fun x => by
    rw [BitVec.toNat_setWidth]
    exact Nat.mod_eq_of_lt (by omega)
  have same : ∀ x y : BitVec 32, (x.setWidth 64 == y.setWidth 64) = (x == y) := fun x y => by
    rw [Bool.eq_iff_iff, beq_iff_eq, beq_iff_eq]
    exact setWidth_inj _ _
  cases cc <;>
    simp only [icmp, sext_i32, held, BitVec.slt, BitVec.sle, BitVec.ult, BitVec.ule, signed,
      unsigned, same, bne]

theorem runCmp_f64 {ty : Option IrType} {op : CompareOp} {cc : FloatCc}
    (a b : BitVec 64) (result : Bool) (condition : floatCc op = some cc) :
    runCmp ty op ⟨.f64, a⟩ ⟨.f64, b⟩ = .ok (truth result) ↔
      ty.isSome ∧ fcmp cc .f64 a b = result := by
  cases ty with
  | none => simp [runCmp]
  | some t => simp [runCmp, Interp.cmp, condition, Mt.isFloat, Mt.isInt, truth_inj, widen]

theorem runCmp_bool {ty : Option IrType} {op : CompareOp} (a b result : Bool)
    (cc : IntCc) (integer : isFloatCompare op = false) (condition : intCc op = some cc) :
    runCmp ty op (truth a) (truth b) = .ok (truth result) ↔
      ty.isSome ∧ icmp cc .i8 (truth a).bits (truth b).bits = result := by
  cases ty with
  | none => simp [runCmp]
  | some t => simp [runCmp, Interp.cmp, integer, condition, Mt.isFloat, truth_inj]

theorem distance_of_equal {a b : BitVec 64} (equal : (f64 a).eq (f64 b) = true) :
    distance a b =
      if (f64 a).isFinite then .finite false 0 (Format.minExponent .binary64) else .nan := by
  change Binary.absDatum (Binary.decode .binary64
    (Binary.subDatum .binary64 (f64 a) (f64 b))) = _
  cases finite : (f64 a).isFinite with
  | true =>
      have difference : ∃ negative, Binary.subDatum .binary64 (f64 a) (f64 b) =
          Binary.signBit .binary64 negative := Binary.subDatum_of_eq equal finite
      obtain ⟨negative, zero⟩ := difference
      rw [zero]
      cases negative <;> decide
  | false =>
      rw [Binary.subDatum_of_equal_infinite equal finite]
      decide

theorem distance_of_nan {a b : BitVec 64}
    (nan : (f64 a).isNan = true ∨ (f64 b).isNan = true) : distance a b = .nan := by
  change Binary.absDatum (Binary.decode .binary64
    (Binary.subDatum .binary64 (f64 a) (f64 b))) = _
  rw [Binary.subDatum_of_nan nan]
  decide

/-- Folding equality by distance is right exactly under the two stated
exceptions. -/
theorem distance_eq_iff (a b : BitVec 64) :
    fcmp .eq .f64 a b = (distance a b).lt epsilon ↔
      if (f64 a).eq (f64 b) then (f64 a).isFinite = true
      else (distance a b).lt epsilon = false := by
  change (f64 a).eq (f64 b) = _ ↔ _
  cases equal : (f64 a).eq (f64 b) with
  | false =>
      simp only [Bool.false_eq_true, if_false]
      exact eq_comm
  | true =>
      have near : Datum.lt (.finite false 0 (Format.minExponent .binary64)) epsilon = true := by
        decide +kernel
      rw [distance_of_equal equal]
      cases finite : (f64 a).isFinite with
      | true => simp [near]
      | false => simp [Datum.lt, Datum.compare]

theorem distance_ne_iff (a b : BitVec 64) :
    fcmp .ne .f64 a b = epsilon.le (distance a b) ↔
      (f64 a).isNan = false ∧ (f64 b).isNan = false ∧
        ((f64 a).eq (f64 b) = true ∨ epsilon.le (distance a b) = true) := by
  change (!(f64 a).eq (f64 b)) = _ ↔ _
  have unordered : epsilon.le .nan = false := by decide
  by_cases nan : (f64 a).isNan = true ∨ (f64 b).isNan = true
  · rw [distance_of_nan nan, Binary.eq_of_nan nan, unordered]
    rcases nan with nan | nan <;> simp [nan]
  · simp only [not_or, Bool.not_eq_true] at nan
    simp only [nan, true_and]
    cases equal : (f64 a).eq (f64 b) with
    | false =>
        simp only [Bool.false_eq_true, false_or, Bool.not_false]
        exact eq_comm
    | true =>
        have near : epsilon.le (.finite false 0 (Format.minExponent .binary64)) = false := by
          decide +kernel
        rw [distance_of_equal equal]
        cases (f64 a).isFinite <;> simp [near, unordered]

theorem comparisonSafe_iff (ty : Option IrType) (op : CompareOp)
    (left right : IrValue) :
    Agrees (.ok (foldComparison op left right))
        (runCmp ty op ((constantWord left).getD default)
          ((constantWord right).getD default)) ↔
      ComparisonSafe ty op left right := by
  have value : ∀ result, constantWord (.bool result) = some (truth result) := fun _ => rfl
  cases left with
  | i32 a =>
      cases right with
      | i32 b =>
          have words : ∀ x : BitVec 32, (constantWord (.i32 x)).getD default = word32 x :=
            fun _ => rfl
          rw [words, words]
          cases op <;> simp only [foldComparison, ComparisonSafe, agrees_none, agrees_some (value _)]
          all_goals
            rw [runCmp_word32 _ _ _ rfl rfl, icmp_i32]
            simp
      | _ => simp [foldComparison, ComparisonSafe]
  | f64 a =>
      cases right with
      | f64 b =>
          have words : ∀ x, (constantWord (.f64 x)).getD default = ⟨.f64, x⟩ := fun _ => rfl
          rw [words, words]
          cases op <;> simp only [foldComparison, ComparisonSafe, agrees_none, agrees_some (value _)]
          all_goals rw [runCmp_f64 _ _ _ rfl]
          case feq => rw [distance_eq_iff]
          case fne => rw [distance_ne_iff]
          all_goals exact and_iff_left rfl
      | _ => simp [foldComparison, ComparisonSafe]
  | bool a =>
      cases right with
      | bool b =>
          have words : ∀ x, (constantWord (.bool x)).getD default = truth x := fun _ => rfl
          rw [words, words]
          cases op <;> simp only [foldComparison, ComparisonSafe, agrees_none, agrees_some (value _)]
          all_goals
            rw [runCmp_bool _ _ _ _ rfl rfl]
            cases a <;> cases b <;> simp [icmp, truth, canon]
      | _ => simp [foldComparison, ComparisonSafe]
  | _ => simp [foldComparison, ComparisonSafe]

/-! ### From one instruction to the whole pass -/

theorem foldsFaithfully_iff (function : IrFunction) (constants : Constants)
    (inst : IrInstruction) :
    FoldsFaithfully function constants inst ↔ FoldSafe function constants inst := by
  have lifted : ∀ (dest : IrId) (folded : Except FoldPanic (Option IrValue))
      (computed : Except Fault Word),
      (∃ result, (folded >>= fun value => .ok (value.map (dest, ·))) =
          Except.ok (ε := FoldPanic) result ∧
        ∀ target value, result = some (target, value) →
          ∃ word, constantWord value = some word ∧ computed = .ok word) ↔
        Agrees folded computed := by
    intro dest folded computed
    cases folded with
    | error panic => simp
    | ok result => cases result <;> simp [Agrees]
  cases inst with
  | binOp dest op left right =>
      cases leftKnown : constants.get? left with
      | none => simp [FoldsFaithfully, FoldSafe, foldInstruction, leftKnown]
      | some leftValue =>
          cases rightKnown : constants.get? right with
          | none => simp [FoldsFaithfully, FoldSafe, foldInstruction, leftKnown, rightKnown]
          | some rightValue =>
              have agreement := binopSafe_iff (binopType function dest left right) op leftValue
                rightValue
              simp only [FoldsFaithfully, FoldSafe, foldInstruction, evalOriginal, constantOf,
                leftKnown, rightKnown, Option.mem_def, Option.some.injEq, forall_eq',
                Option.bind_some]
              exact (lifted dest _ _).trans agreement
  | cmp dest op left right =>
      cases leftKnown : constants.get? left with
      | none => simp [FoldsFaithfully, FoldSafe, foldInstruction, leftKnown]
      | some leftValue =>
          cases rightKnown : constants.get? right with
          | none => simp [FoldsFaithfully, FoldSafe, foldInstruction, leftKnown, rightKnown]
          | some rightValue =>
              have agreement := comparisonSafe_iff (cmpType function left) op leftValue rightValue
              simp only [FoldsFaithfully, FoldSafe, foldInstruction, evalOriginal, constantOf,
                leftKnown, rightKnown, Option.mem_def, Option.some.injEq, forall_eq',
                Option.bind_some]
              exact (lifted dest (.ok _) _).trans agreement
  | _ => simp [FoldsFaithfully, FoldSafe, foldInstruction]

theorem AlongPass.congr {first second : Constants → IrInstruction → Prop}
    (same : ∀ constants inst, first constants inst ↔ second constants inst)
    (constants : Constants) (instructions : List IrInstruction) :
    AlongPass first constants instructions ↔ AlongPass second constants instructions := by
  induction instructions generalizing constants with
  | nil => rfl
  | cons inst rest ih =>
      exact and_congr (same constants inst) (ih _)

theorem AlongPass.append {holds : Constants → IrInstruction → Prop} {constants : Constants}
    {front back : List IrInstruction} :
    AlongPass holds constants (front ++ back) ↔
      AlongPass holds constants front ∧
        AlongPass holds (front.foldl afterInstruction constants) back := by
  induction front generalizing constants with
  | nil => simp [AlongPass]
  | cons inst rest ih =>
      simp only [List.cons_append, AlongPass, List.foldl_cons, ih, and_assoc]

theorem foldInstructions_finishes {function : IrFunction} {constants : Constants}
    {instructions : List IrInstruction}
    (faithful : AlongPass (FoldsFaithfully function) constants instructions) :
    ∃ folded, foldInstructions constants instructions =
      .ok (instructions.foldl afterInstruction constants, folded) := by
  induction instructions generalizing constants with
  | nil => exact ⟨[], rfl⟩
  | cons inst rest ih =>
      obtain ⟨⟨result, stepped, -⟩, restFaithful⟩ := faithful
      obtain ⟨folded, restFolded⟩ := ih restFaithful
      cases result with
      | none =>
          have same : afterInstruction constants inst = constants := by
            simp [afterInstruction, stepped]
          rw [same] at restFolded
          exact ⟨inst :: folded, by simp [foldInstructions, stepped, restFolded, same]⟩
      | some entry =>
          obtain ⟨dest, value⟩ := entry
          have inserted : afterInstruction constants inst = constants.insert dest value := by
            simp [afterInstruction, stepped]
          rw [inserted] at restFolded
          exact ⟨.const dest value :: folded, by
            simp [foldInstructions, stepped, restFolded, inserted]⟩

theorem foldBlocks_finishes {function : IrFunction} {constants : Constants}
    {blocks : List (IrBlockId × IrBasicBlock)}
    (faithful : AlongPass (FoldsFaithfully function) constants
      ((blocks.map Prod.snd).flatMap (·.instructions))) :
    ∃ folded, foldBlocks constants blocks = .ok folded := by
  induction blocks generalizing constants with
  | nil => exact ⟨[], rfl⟩
  | cons entry rest ih =>
      obtain ⟨id, block⟩ := entry
      simp only [List.map_cons, List.flatMap_cons, AlongPass.append] at faithful
      obtain ⟨instructions, blockFolded⟩ := foldInstructions_finishes faithful.1
      obtain ⟨folded, restFolded⟩ := ih faithful.2
      exact ⟨(id, { block with instructions }) :: folded, by
        simp [foldBlocks, blockFolded, restFolded]⟩

/-- Folding a function agrees with running it, and the pass finishes, exactly
when every `BinOp` and `Cmp` it meets with known constants is a safe one. -/
theorem functionFoldsFaithfully_iff (function : IrFunction) :
    FunctionFoldsFaithfully function ↔
      AlongPass (FoldSafe function) (collectConstants function)
        (instructionsInOrder function) := by
  have same := AlongPass.congr (foldsFaithfully_iff function) (collectConstants function)
    (instructionsInOrder function)
  constructor
  · exact fun faithful => same.mp faithful.2
  · intro safe
    have faithful := same.mpr safe
    exact ⟨foldBlocks_finishes faithful, faithful⟩

/-! ### A function the pass panics on and one it changes -/

def twoConstants (first second : IrValue) (types : List (IrId × IrType))
    (inst : IrInstruction) : IrFunction where
  name := "f"
  signature :=
    { parameters := [], returnType := .i32, callingConvention := .haxe, typeParams := [],
      usesSret := false }
  cfg :=
    { blocks := OrdMap.ofList [(0,
        { instructions := [.const 0 first, .const 1 second, inst],
          terminator := .ret (some 2) })],
      entryBlock := 0, nextBlockId := 1 }
  locals := .empty
  registerTypes := OrdMap.ofList types
  externalLinkage := false
  nextRegId := 3
  typeParamTagFixups := []
  typeParamMetadataFixups := []

def leastByMinusOne : IrFunction :=
  twoConstants (.i32 (BitVec.intMin 32)) (.i32 (-1)) [(0, .i32), (1, .i32), (2, .i32)]
    (.binOp 2 .div 0 1)

/-- `1.0 == 1.0 - 2 ^ -53`: distinct, and closer than `f64::EPSILON`. -/
def neighbours : IrFunction :=
  twoConstants (.f64 0x3ff0000000000000) (.f64 0x3fefffffffffffff)
    [(0, .f64), (1, .f64), (2, .bool)] (.cmp 2 .feq 0 1)

/-- The pass panics on the one and folds the other to `true`, which runs to
`false`. -/
theorem fold_diverges : ¬FunctionFoldsFaithfully leastByMinusOne ∧
    ¬FunctionFoldsFaithfully neighbours := by
  constructor
  · rintro ⟨⟨blocks, finished⟩, -⟩
    have panics : foldFunction leastByMinusOne = .error .divideOverflow := rfl
    rw [panics] at finished
    cases finished
  · rintro ⟨-, -, -, ⟨folded, stepped, agrees⟩, -⟩
    have close : (distance 0x3ff0000000000000 0x3fefffffffffffff).lt epsilon = true := by
      decide +kernel
    have distinct : fcmp .eq .f64 0x3ff0000000000000 0x3fefffffffffffff = false := by
      decide +kernel
    have replaced : folded = some (2, .bool true) := by
      have folds : foldInstruction (collectConstants neighbours) (.cmp 2 .feq 0 1) =
          .ok (some (2, .bool ((distance 0x3ff0000000000000 0x3fefffffffffffff).lt epsilon))) :=
        rfl
      rw [close] at folds
      exact Except.ok.inj (stepped.symm.trans folds)
    obtain ⟨word, isTrue, computed⟩ := agrees 2 (.bool true) replaced
    cases isTrue
    have runs : evalOriginal neighbours (collectConstants neighbours) (.cmp 2 .feq 0 1) =
        some (.ok (truth (fcmp .eq .f64 0x3ff0000000000000 0x3fefffffffffffff))) := rfl
    rw [distinct] at runs
    exact absurd (computed.symm.trans runs) (by decide)

end Rayzor.Passes.ConstantFolding
