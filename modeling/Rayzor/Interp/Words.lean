import Mathlib
import Rayzor.Library.Binary
import Rayzor.Ir.Types

/-!
Contract: machine words and the operations the interpreter runs on them.

Owns: machine types, how a register holds a value of one, the conversions, the
integer and float operations and the comparisons, each with its trap.

Does not own: which operation an instruction decodes to, memory, or calls.
Floating-point fusion is taken to be off, as it is by default.
-/

namespace Rayzor.Interp

open Ir Library

/-- A value's machine type: the type the native lowering gives it. -/
inductive Mt where
  | i8
  | i16
  | i32
  | i64
  | f32
  | f64
  /-- A SIMD vector. The interpreter hands these to compiled code. -/
  | v128
  deriving DecidableEq

namespace Mt

/-- `none` for `Void`. -/
def of : IrType → Option Mt
  | .void => none
  | .i8 | .u8 | .bool => some i8
  | .i16 | .u16 => some i16
  | .i32 | .u32 => some i32
  | .f32 => some f32
  | .f64 => some f64
  | .vector _ _ => some v128
  | _ => some i64

/-- A phi's block parameter type, which maps fewer types than `of`. -/
def phi : IrType → Mt
  | .i8 | .bool => i8
  | .i16 => i16
  | .i32 => i32
  | .f32 => f32
  | .f64 => f64
  | .vector _ _ => v128
  | _ => i64

def bits : Mt → Nat
  | i8 => 8
  | i16 => 16
  | i32 | f32 => 32
  | i64 | f64 => 64
  | v128 => 128

def isInt : Mt → Bool
  | i8 | i16 | i32 | i64 => true
  | _ => false

def isFloat : Mt → Bool
  | f32 | f64 => true
  | _ => false

end Mt

/-- What a register holds: its machine type and its 64 bits. -/
structure Word where
  mt : Mt
  bits : BitVec 64
  deriving DecidableEq

instance : Inhabited Word := ⟨⟨.i64, 0⟩⟩

/-- The low `mt` bits of `bits`, zero-extended: how a register holds a value. -/
def canon (bits : BitVec 64) : Mt → BitVec 64
  | .i8 => (bits.setWidth 8).setWidth 64
  | .i16 => (bits.setWidth 16).setWidth 64
  | .i32 | .f32 => (bits.setWidth 32).setWidth 64
  | _ => bits

def sext (bits : BitVec 64) : Mt → BitVec 64
  | .i8 => (bits.setWidth 8).signExtend 64
  | .i16 => (bits.setWidth 16).signExtend 64
  | .i32 => (bits.setWidth 32).signExtend 64
  | _ => bits

def float (bits : BitVec 64) (mt : Mt) : Nat :=
  if mt = .f32 then Binary.convert .binary64 .binary32 (bits.setWidth 32).toNat else bits.toNat

def floatBits (value : Nat) (mt : Mt) : BitVec 64 :=
  if mt = .f32 then BitVec.ofNat 64 (Binary.convert .binary32 .binary64 value)
  else BitVec.ofNat 64 value

/-- Why a run stops without a result. The register and block numbers a message
would print are not part of the fault. -/
inductive Fault where
  | badConversion
  | integerOverflow
  | divisionByZero
  | nullRead (address : BitVec 64)
  | nullWrite (address : BitVec 64)
  | nullAtomic
  | vectorMemory
  | nullArrayHeader
  | nullFunctionValue
  | cloneOfNull
  | outOfMemory
  | useAfterMove (line : Nat)
  | vectorCode
  | typeNotFound
  | voidType
  | unsupportedCast
  | unsupportedBitCast
  | unsupportedInstruction
  | unsupportedConstant
  | indexCount (count : Nat)
  | notPointer
  | notStruct
  | fieldOutOfBounds (index : Nat)
  | invalidComparison
  | invalidSignature
  | structReturn
  | functionNotFound (func : IrFunctionId)
  | unresolvedExtern (name : String)
  | setjmp
  | tooManyArguments
  | panicked (message : String)
  | unreachableCode
  | noReturn
  | missingTarget
  | missingIncoming
  | missingReturnValue
  | callee (code : Nat)
  deriving DecidableEq

/-- One native conversion instruction. -/
inductive Conv where
  | sext (source target : Mt)
  | uext (source target : Mt)
  | reduce (target : Mt)
  | sToF (source target : Mt)
  | uToF (source target : Mt)
  /-- Traps on NaN and on overflow. -/
  | fToS (source target : Mt)
  | fToU (source target : Mt)
  | fToSSat (source target : Mt)
  | fPromote
  | fDemote
  /-- A reinterpretation, or a width change left to the backend. -/
  | reinterpret (target : Mt)
  deriving DecidableEq

namespace Conv

/-- The machine type converted to. -/
def target : Conv → Mt
  | sext _ t | uext _ t | sToF _ t | uToF _ t | fToS _ t | fToU _ t | fToSSat _ t => t
  | reduce t | reinterpret t => t
  | fPromote => .f64
  | fDemote => .f32

/-- Truncation towards zero into `low ..< high`, or the trap. -/
def truncated (value : Nat) (low high : Int) : Except Fault Int :=
  match Binary.decode .binary64 value with
  | .nan => .error .badConversion
  | .infinite _ => .error .integerOverflow
  | datum =>
      if datum.truncInt < low ∨ high ≤ datum.truncInt then .error .integerOverflow
      else .ok datum.truncInt

/-- Truncation towards zero, clamped to a signed width; zero for a NaN. -/
def saturated (value : Nat) (width : Nat) : Int :=
  let low : Int := -2 ^ (width - 1)
  let high : Int := 2 ^ (width - 1) - 1
  match Binary.decode .binary64 value with
  | .nan => 0
  | .infinite negative => if negative then low else high
  | datum => max low (min high datum.truncInt)

def apply (conv : Conv) (bits : BitVec 64) : Except Fault (BitVec 64) :=
  match conv with
  | sext source t => .ok (canon (Interp.sext bits source) t)
  | uext _ t | reduce t | reinterpret t => .ok (canon bits t)
  | sToF source t => .ok (floatBits (Binary.ofInt .binary64 (Interp.sext bits source).toInt) t)
  | uToF _ t => .ok (floatBits (Binary.ofInt .binary64 bits.toNat) t)
  | fToS source t => do
      let whole ← truncated (float bits source) (-2 ^ (t.bits - 1)) (2 ^ (t.bits - 1))
      .ok (canon (BitVec.ofInt 64 whole) t)
  | fToU source t => do
      let whole ← truncated (float bits source) 0 (2 ^ t.bits)
      .ok (canon (BitVec.ofInt 64 whole) t)
  | fToSSat source t =>
      let width := match t with
        | .i8 => 8
        | .i16 => 16
        | .i32 => 32
        | _ => 64
      .ok (canon (BitVec.ofInt 64 (saturated (float bits source) width)) t)
  | fPromote => .ok (BitVec.ofNat 64 (Binary.convert .binary64 .binary32 (bits.setWidth 32).toNat))
  | fDemote => .ok (BitVec.ofNat 64 (Binary.convert .binary32 .binary64 bits.toNat))

end Conv

inductive IntOp where
  | add
  | sub
  | mul
  | sdiv
  | udiv
  | srem
  | urem
  | and
  | or
  | xor
  | shl
  | sshr
  | ushr
  deriving DecidableEq

inductive FloatOp where
  | add
  | sub
  | mul
  | div
  /-- `a - trunc(a / b) * b`. -/
  | rem
  deriving DecidableEq

inductive IntCc where
  | eq
  | ne
  | slt
  | sle
  | sgt
  | sge
  | ult
  | ule
  | ugt
  | uge
  deriving DecidableEq

inductive FloatCc where
  | eq
  /-- Unordered or not equal. -/
  | ne
  | lt
  | le
  | gt
  | ge
  | ord
  | uno
  deriving DecidableEq

def ibin (op : IntOp) (mt : Mt) (a b : BitVec 64) : Except Fault (BitVec 64) := do
  let shift := b &&& BitVec.ofNat 64 (mt.bits - 1)
  let result ← match op with
    | .add => .ok (a + b)
    | .sub => .ok (a - b)
    | .mul => .ok (a * b)
    | .sdiv =>
        if sext b mt = 0 then .error .divisionByZero
        else if sext b mt = -1 ∧ sext a mt = sext (1 <<< (mt.bits - 1)) mt then
          .error .integerOverflow
        else .ok ((sext a mt).sdiv (sext b mt))
    | .udiv => if b = 0 then .error .divisionByZero else .ok (a / b)
    | .srem =>
        if sext b mt = 0 then .error .divisionByZero else .ok ((sext a mt).srem (sext b mt))
    | .urem => if b = 0 then .error .divisionByZero else .ok (a % b)
    | .and => .ok (a &&& b)
    | .or => .ok (a ||| b)
    | .xor => .ok (a ^^^ b)
    | .shl => .ok (a <<< shift)
    | .sshr => .ok ((sext a mt).sshiftRight' shift)
    | .ushr => .ok (a >>> shift)
  .ok (canon result mt)

def floatOperation (format : Format) (op : FloatOp) (x y : Nat) : Nat :=
  match op with
  | .add => Binary.add format x y
  | .sub => Binary.sub format x y
  | .mul => Binary.mul format x y
  | .div => Binary.div format x y
  | .rem => Binary.sub format x (Binary.mul format (Binary.trunc format (Binary.div format x y)) y)

def fbin (op : FloatOp) (mt : Mt) (a b : BitVec 64) : BitVec 64 :=
  if mt = .f32 then
    BitVec.ofNat 64
      (floatOperation .binary32 op (a.setWidth 32).toNat (b.setWidth 32).toNat)
  else BitVec.ofNat 64 (floatOperation .binary64 op a.toNat b.toNat)

def icmp (cc : IntCc) (mt : Mt) (a b : BitVec 64) : Bool :=
  let x := sext a mt
  let y := sext b mt
  let u := canon a mt
  let v := canon b mt
  match cc with
  | .eq => u == v
  | .ne => u != v
  | .slt => x.slt y
  | .sle => x.sle y
  | .sgt => y.slt x
  | .sge => y.sle x
  | .ult => u.ult v
  | .ule => u.ule v
  | .ugt => v.ult u
  | .uge => v.ule u

def fcmp (cc : FloatCc) (mt : Mt) (a b : BitVec 64) : Bool :=
  let x := Binary.decode .binary64 (float a mt)
  let y := Binary.decode .binary64 (float b mt)
  match cc with
  | .eq => x.eq y
  | .ne => !x.eq y
  | .lt => x.lt y
  | .le => x.le y
  | .gt => y.lt x
  | .ge => y.le x
  | .ord => !x.isNan && !y.isNan
  | .uno => x.isNan || y.isNan

/-- A computation that gave a result gave one at each stage. -/
theorem bind_eq_ok {ε α β : Type} {first : Except ε α} {rest : α → Except ε β} {result : β} :
    (first >>= rest) = .ok result ↔ ∃ middle, first = .ok middle ∧ rest middle = .ok result := by
  cases first with
  | error fault => simp [bind, Except.bind]
  | ok middle => simp [bind, Except.bind]

@[simp] theorem bind_ok {ε α β : Type} (value : α) (rest : α → Except ε β) :
    ((Except.ok value : Except ε α) >>= rest) = rest value := rfl

@[simp] theorem bind_error {ε α β : Type} (fault : ε) (rest : α → Except ε β) :
    ((Except.error fault : Except ε α) >>= rest) = .error fault := rfl

def coerce (conv : Option Conv) (word : Word) : Except Fault Word :=
  match conv with
  | none => .ok word
  | some conv => do
      let bits ← conv.apply word.bits
      .ok ⟨conv.target, bits⟩

@[simp] theorem canon_canon (bits : BitVec 64) (mt : Mt) :
    canon (canon bits mt) mt = canon bits mt := by
  cases mt <;> simp [canon]

@[simp] theorem coerce_none (word : Word) : coerce none word = .ok word := rfl

theorem coerce_mt {conv : Option Conv} {word result : Word}
    (converted : coerce conv word = .ok result) :
    result.mt = (conv.map Conv.target).getD word.mt := by
  cases conv with
  | none =>
      cases converted
      rfl
  | some conv =>
      obtain ⟨bits, -, same⟩ := bind_eq_ok.mp converted
      cases same
      rfl

section Narrow

variable (a b : BitVec 32)

theorem low_toInt (x : BitVec 64) : (x.setWidth 32).toInt = x.toInt.bmod (2 ^ 32) := by
  rw [BitVec.toInt_setWidth, BitVec.toInt_eq_toNat_bmod]
  exact (Int.bmod_bmod_of_dvd (by decide)).symm

theorem low_add : (a.setWidth 64 + b.setWidth 64).setWidth 32 = a + b := by
  rw [BitVec.setWidth_add _ _ (by decide)]
  simp

theorem low_sub : (a.setWidth 64 - b.setWidth 64).setWidth 32 = a - b := by
  bv_omega

theorem low_mul : (a.setWidth 64 * b.setWidth 64).setWidth 32 = a * b := by
  rw [BitVec.setWidth_mul _ _ (by decide)]
  simp

theorem low_udiv : (a.setWidth 64 / b.setWidth 64).setWidth 32 = a / b := by
  apply BitVec.eq_of_toNat_eq
  have left : a.toNat % 2 ^ 64 = a.toNat := Nat.mod_eq_of_lt (by omega)
  have right : b.toNat % 2 ^ 64 = b.toNat := Nat.mod_eq_of_lt (by omega)
  have small : a.toNat / b.toNat < 2 ^ 32 := lt_of_le_of_lt (Nat.div_le_self _ _) a.isLt
  simp only [BitVec.toNat_setWidth, BitVec.toNat_udiv, left, right]
  exact Nat.mod_eq_of_lt small

theorem low_umod : (a.setWidth 64 % b.setWidth 64).setWidth 32 = a % b := by
  apply BitVec.eq_of_toNat_eq
  have left : a.toNat % 2 ^ 64 = a.toNat := Nat.mod_eq_of_lt (by omega)
  have right : b.toNat % 2 ^ 64 = b.toNat := Nat.mod_eq_of_lt (by omega)
  have small : a.toNat % b.toNat < 2 ^ 32 := lt_of_le_of_lt (Nat.mod_le _ _) a.isLt
  simp only [BitVec.toNat_setWidth, BitVec.toNat_umod, left, right]
  exact Nat.mod_eq_of_lt small

theorem low_sdiv :
    ((a.signExtend 64).sdiv (b.signExtend 64)).setWidth 32 = a.sdiv b := by
  apply BitVec.eq_of_toInt_eq
  rw [low_toInt, BitVec.toInt_sdiv, BitVec.toInt_sdiv, BitVec.toInt_signExtend_of_le (by decide),
    BitVec.toInt_signExtend_of_le (by decide)]
  exact Int.bmod_bmod_of_dvd (by decide)

theorem low_srem :
    ((a.signExtend 64).srem (b.signExtend 64)).setWidth 32 = a.srem b := by
  apply BitVec.eq_of_toInt_eq
  rw [low_toInt, BitVec.toInt_srem, BitVec.toInt_srem, BitVec.toInt_signExtend_of_le (by decide),
    BitVec.toInt_signExtend_of_le (by decide), ← BitVec.toInt_srem, BitVec.toInt_bmod_cancel]

theorem low_sshiftRight (count : Nat) :
    ((a.signExtend 64).sshiftRight count).setWidth 32 = a.sshiftRight count := by
  apply BitVec.eq_of_toInt_eq
  rw [low_toInt, BitVec.toInt_sshiftRight, BitVec.toInt_sshiftRight,
    BitVec.toInt_signExtend_of_le (by decide), ← BitVec.toInt_sshiftRight,
    BitVec.toInt_bmod_cancel]

theorem low_shiftLeft (count : Nat) : (a.setWidth 64 <<< count).setWidth 32 = a <<< count := by
  apply BitVec.eq_of_toNat_eq
  simp

theorem low_ushiftRight (count : Nat) : (a.setWidth 64 >>> count).setWidth 32 = a >>> count := by
  apply BitVec.eq_of_toNat_eq
  have wide : a.toNat % 2 ^ 64 = a.toNat := Nat.mod_eq_of_lt (by omega)
  have small : a.toNat >>> count < 2 ^ 32 := lt_of_le_of_lt (Nat.shiftRight_le _ _) a.isLt
  rw [BitVec.toNat_setWidth, BitVec.toNat_ushiftRight, BitVec.toNat_setWidth, wide,
    BitVec.toNat_ushiftRight]
  exact Nat.mod_eq_of_lt small

theorem sext_i32 : sext (a.setWidth 64) .i32 = a.signExtend 64 := by
  simp [sext]

theorem canon_i32 (x : BitVec 64) : canon x .i32 = (x.setWidth 32).setWidth 64 := rfl

theorem canon_toInt (value : BitVec 32) :
    canon (BitVec.ofInt 64 value.toInt) .i32 = value.setWidth 64 := by
  have low : (BitVec.ofInt 64 value.toInt).setWidth 32 = value := by
    apply BitVec.eq_of_toInt_eq
    rw [low_toInt, BitVec.toInt_ofInt, Int.bmod_bmod_of_dvd (by decide), BitVec.toInt_bmod_cancel]
  rw [canon_i32, low]

theorem signExtend_inj (a b : BitVec 32) : a.signExtend 64 = b.signExtend 64 ↔ a = b := by
  constructor
  · intro equal
    have values := congrArg BitVec.toInt equal
    rw [BitVec.toInt_signExtend_of_le (by decide),
      BitVec.toInt_signExtend_of_le (by decide)] at values
    exact BitVec.eq_of_toInt_eq values
  · rintro rfl
    rfl

theorem setWidth_inj (a b : BitVec 32) : a.setWidth 64 = b.setWidth 64 ↔ a = b := by
  constructor
  · intro equal
    have low := congrArg (BitVec.setWidth 32) equal
    simpa using low
  · rintro rfl
    rfl

theorem shiftCount :
    (b.setWidth 64 &&& BitVec.ofNat 64 (Mt.i32.bits - 1)).toNat = b.toNat % 32 := by
  have low : b.toNat &&& (2 ^ 5 - 1) = b.toNat % 2 ^ 5 := Nat.and_two_pow_sub_one_eq_mod _ _
  have wide : b.toNat % 2 ^ 64 = b.toNat := Nat.mod_eq_of_lt (by omega)
  rw [BitVec.toNat_and, BitVec.toNat_setWidth, wide]
  exact low

end Narrow

end Rayzor.Interp
