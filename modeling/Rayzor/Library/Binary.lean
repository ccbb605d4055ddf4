import Mathlib

/-!
Contract: binary floating point as an executable function of bit patterns,
rounding to nearest with ties to even.

Owns: the interchange encoding of a format, the exact value a pattern stands
for, rounding an exact value back, the arithmetic operations, comparison and
the conversions to and from integers and between formats.

Does not own: exception flags, other rounding directions, or the payload of a
NaN. Every operation that gives a NaN gives the one canonical pattern.
-/

namespace Rayzor.Library

/-- A binary interchange format: the precision counts the hidden bit. -/
structure Format where
  precision : Nat
  exponentBits : Nat
  deriving DecidableEq

namespace Format

def binary32 : Format := ⟨24, 8⟩

def binary64 : Format := ⟨53, 11⟩

/-- The exponent of the last place of the smallest numbers. -/
def minExponent (format : Format) : Int :=
  3 - 2 ^ (format.exponentBits - 1) - format.precision

/-- The exponent field of infinities and NaNs. -/
def topField (format : Format) : Nat := 2 ^ format.exponentBits - 1

end Format

/-- What a pattern stands for. A finite datum is `± mantissa * 2 ^ exponent`. -/
inductive Datum where
  | nan
  | infinite (negative : Bool)
  | finite (negative : Bool) (mantissa : Nat) (exponent : Int)
  deriving DecidableEq

namespace Datum

def negate : Datum → Datum
  | .nan => .nan
  | .infinite negative => .infinite (!negative)
  | .finite negative mantissa exponent => .finite (!negative) mantissa exponent

def isNan : Datum → Bool
  | .nan => true
  | _ => false

def isFinite : Datum → Bool
  | .finite _ _ _ => true
  | _ => false

/-- A signed mantissa brought down to a smaller exponent. -/
def scaled (negative : Bool) (mantissa : Nat) (exponent target : Int) : Int :=
  let magnitude : Int := (mantissa * 2 ^ (exponent - target).toNat : Nat)
  if negative then -magnitude else magnitude

/-- The exact difference `left - right` in units of the smaller exponent. -/
def difference (leftNegative : Bool) (leftMantissa : Nat) (leftExponent : Int)
    (rightNegative : Bool) (rightMantissa : Nat) (rightExponent : Int) : Int :=
  let target := min leftExponent rightExponent
  scaled leftNegative leftMantissa leftExponent target -
    scaled rightNegative rightMantissa rightExponent target

/-- IEEE ordering: nothing is ordered against a NaN, and zeros are equal. -/
def compare : Datum → Datum → Option Ordering
  | .nan, _ => none
  | _, .nan => none
  | .infinite left, .infinite right =>
      some (if left = right then .eq else if left then .lt else .gt)
  | .infinite left, .finite _ _ _ => some (if left then .lt else .gt)
  | .finite _ _ _, .infinite right => some (if right then .gt else .lt)
  | .finite leftNegative leftMantissa leftExponent,
      .finite rightNegative rightMantissa rightExponent =>
      let gap := difference leftNegative leftMantissa leftExponent
        rightNegative rightMantissa rightExponent
      some (if gap = 0 then .eq else if gap < 0 then .lt else .gt)

def eq (left right : Datum) : Bool := compare left right == some .eq

def lt (left right : Datum) : Bool := compare left right == some .lt

def le (left right : Datum) : Bool := left.lt right || left.eq right

def truncInt : Datum → Int
  | .finite negative mantissa exponent =>
      let magnitude : Int :=
        if 0 ≤ exponent then (mantissa * 2 ^ exponent.toNat : Nat)
        else (mantissa / 2 ^ (-exponent).toNat : Nat)
      if negative then -magnitude else magnitude
  | _ => 0

end Datum

namespace Binary

variable (format : Format)

def quietNan : Nat :=
  format.topField * 2 ^ (format.precision - 1) + 2 ^ (format.precision - 2)

def signBit (negative : Bool) : Nat :=
  if negative then 2 ^ (format.precision - 1 + format.exponentBits) else 0

def infinity (negative : Bool) : Nat :=
  signBit format negative + format.topField * 2 ^ (format.precision - 1)

def decode (bits : Nat) : Datum :=
  let fraction := bits % 2 ^ (format.precision - 1)
  let field := bits / 2 ^ (format.precision - 1) % 2 ^ format.exponentBits
  let negative := bits / 2 ^ (format.precision - 1 + format.exponentBits) % 2 = 1
  if field = format.topField then
    if fraction = 0 then .infinite negative else .nan
  else if field = 0 then
    .finite negative fraction format.minExponent
  else
    .finite negative (fraction + 2 ^ (format.precision - 1))
      (format.minExponent + (field : Int) - 1)

/-- Drop `shift` low bits, to nearest, ties to even. `sticky` says that the
exact value lies a little above `mantissa`. -/
def roundShift (mantissa shift : Nat) (sticky : Bool) : Nat :=
  let quotient := mantissa / 2 ^ shift
  let remainder := mantissa % 2 ^ shift
  let half := 2 ^ (shift - 1)
  if half < remainder ∨ (remainder = half ∧ (sticky ∨ quotient % 2 = 1)) then quotient + 1
  else quotient

/-- The pattern nearest to `± mantissa * 2 ^ exponent`. -/
def round (negative : Bool) (mantissa : Nat) (exponent : Int) (sticky : Bool) : Nat :=
  if mantissa = 0 then signBit format negative
  else
    let target := max (exponent + (Nat.log2 mantissa : Int) + 1 - format.precision)
      format.minExponent
    let kept :=
      if target ≤ exponent then mantissa * 2 ^ (exponent - target).toNat
      else roundShift mantissa (target - exponent).toNat sticky
    let hidden := 2 ^ (format.precision - 1)
    -- A carry out of the kept bits lands in the exponent field, where it belongs.
    let magnitude :=
      if kept < hidden then kept
      else ((target - format.minExponent).toNat + 1) * hidden + (kept - hidden)
    if format.topField * hidden ≤ magnitude then infinity format negative
    else signBit format negative + magnitude

def encode : Datum → Nat
  | .nan => quietNan format
  | .infinite negative => infinity format negative
  | .finite negative mantissa exponent => round format negative mantissa exponent false

/-- Round an exact signed value; an exact zero takes the sign it is given. -/
def roundInt (value : Int) (exponent : Int) (zeroNegative : Bool) : Nat :=
  if value = 0 then signBit format zeroNegative
  else round format (value < 0) value.natAbs exponent false

def subDatum : Datum → Datum → Nat
  | .nan, _ => quietNan format
  | _, .nan => quietNan format
  | .infinite left, .infinite right =>
      if left = right then quietNan format else infinity format left
  | .infinite left, .finite _ _ _ => infinity format left
  | .finite _ _ _, .infinite right => infinity format (!right)
  | .finite leftNegative leftMantissa leftExponent,
      .finite rightNegative rightMantissa rightExponent =>
      roundInt format
        (Datum.difference leftNegative leftMantissa leftExponent
          rightNegative rightMantissa rightExponent)
        (min leftExponent rightExponent) (leftNegative && !rightNegative)

def sub (left right : Nat) : Nat := subDatum format (decode format left) (decode format right)

def add (left right : Nat) : Nat :=
  subDatum format (decode format left) (decode format right).negate

def mulDatum : Datum → Datum → Nat
  | .nan, _ => quietNan format
  | _, .nan => quietNan format
  | .infinite left, .infinite right => infinity format (left ^^ right)
  | .infinite left, .finite right mantissa _ =>
      if mantissa = 0 then quietNan format else infinity format (left ^^ right)
  | .finite left mantissa _, .infinite right =>
      if mantissa = 0 then quietNan format else infinity format (left ^^ right)
  | .finite left leftMantissa leftExponent, .finite right rightMantissa rightExponent =>
      round format (left ^^ right) (leftMantissa * rightMantissa)
        (leftExponent + rightExponent) false

def mul (left right : Nat) : Nat := mulDatum format (decode format left) (decode format right)

/-- The quotient keeps two bits beyond the precision, so the remainder only
decides whether it lies strictly above them. -/
def divDatum : Datum → Datum → Nat
  | .nan, _ => quietNan format
  | _, .nan => quietNan format
  | .infinite _, .infinite _ => quietNan format
  | .infinite left, .finite right _ _ => infinity format (left ^^ right)
  | .finite left _ _, .infinite right => signBit format (left ^^ right)
  | .finite left leftMantissa leftExponent, .finite right rightMantissa rightExponent =>
      if rightMantissa = 0 then
        if leftMantissa = 0 then quietNan format else infinity format (left ^^ right)
      else
        let shift := format.precision + 2 + Nat.log2 rightMantissa - Nat.log2 leftMantissa
        let scaled := leftMantissa * 2 ^ shift
        round format (left ^^ right) (scaled / rightMantissa)
          (leftExponent - rightExponent - shift) (scaled % rightMantissa ≠ 0)

def div (left right : Nat) : Nat := divDatum format (decode format left) (decode format right)

def truncDatum : Datum → Nat
  | .nan => quietNan format
  | .infinite negative => infinity format negative
  | .finite negative mantissa exponent =>
      if 0 ≤ exponent then round format negative mantissa exponent false
      else round format negative (mantissa / 2 ^ (-exponent).toNat) 0 false

/-- Round towards zero to an integer, kept as a float. -/
def trunc (bits : Nat) : Nat := truncDatum format (decode format bits)

def absDatum : Datum → Datum
  | .nan => .nan
  | .infinite _ => .infinite false
  | .finite _ mantissa exponent => .finite false mantissa exponent

def ofInt (value : Int) : Nat := roundInt format value 0 false

def convert (source : Format) (bits : Nat) : Nat := encode format (decode source bits)

theorem scaled_not (negative : Bool) (mantissa : Nat) (exponent target : Int) :
    Datum.scaled (!negative) mantissa exponent target =
      -Datum.scaled negative mantissa exponent target := by
  cases negative <;> simp [Datum.scaled]

theorem subDatum_negate_comm (left right : Datum) :
    subDatum format left right.negate = subDatum format right left.negate := by
  cases left with
  | nan => cases right <;> rfl
  | infinite leftNegative =>
      cases right with
      | nan => rfl
      | infinite rightNegative => cases leftNegative <;> cases rightNegative <;> rfl
      | finite => simp [subDatum, Datum.negate]
  | finite leftNegative leftMantissa leftExponent =>
      cases right with
      | nan => rfl
      | infinite rightNegative => simp [subDatum, Datum.negate]
      | finite rightNegative rightMantissa rightExponent =>
          simp only [Datum.negate, subDatum, Datum.difference, scaled_not, sub_neg_eq_add,
            Bool.not_not, min_comm leftExponent, Bool.and_comm leftNegative]
          rw [add_comm]

theorem add_comm (left right : Nat) : add format left right = add format right left :=
  subDatum_negate_comm format _ _

theorem mulDatum_comm (left right : Datum) :
    mulDatum format left right = mulDatum format right left := by
  cases left with
  | nan => cases right <;> rfl
  | infinite leftNegative =>
      cases right <;> simp [mulDatum, Bool.xor_comm]
  | finite leftNegative leftMantissa leftExponent =>
      cases right with
      | nan => rfl
      | infinite => simp [mulDatum, Bool.xor_comm]
      | finite =>
          simp only [mulDatum, Bool.xor_comm leftNegative, Nat.mul_comm leftMantissa,
            Int.add_comm leftExponent]

theorem mul_comm (left right : Nat) : mul format left right = mul format right left :=
  mulDatum_comm format _ _

variable {format}

theorem subDatum_of_eq {left right : Datum} (equal : left.eq right = true)
    (finite : left.isFinite = true) :
    ∃ negative, subDatum format left right = signBit format negative := by
  cases left with
  | nan => cases finite
  | infinite negative => cases finite
  | finite leftNegative leftMantissa leftExponent =>
      cases right with
      | nan => simp [Datum.eq, Datum.compare] at equal
      | infinite negative =>
          cases negative <;> simp [Datum.eq, Datum.compare] at equal
      | finite rightNegative rightMantissa rightExponent =>
          have gap : Datum.difference leftNegative leftMantissa leftExponent
              rightNegative rightMantissa rightExponent = 0 := by
            simp only [Datum.eq, Datum.compare, beq_iff_eq, Option.some.injEq] at equal
            split_ifs at equal with zero
            exact zero
          exact ⟨leftNegative && !rightNegative, by simp [subDatum, roundInt, gap]⟩

theorem subDatum_of_nan {left right : Datum} (nan : left.isNan = true ∨ right.isNan = true) :
    subDatum format left right = quietNan format := by
  cases left <;> cases right <;> simp_all [subDatum, Datum.isNan]

theorem subDatum_of_equal_infinite {left right : Datum} (equal : left.eq right = true)
    (infinite : left.isFinite = false) : subDatum format left right = quietNan format := by
  cases left with
  | nan => rfl
  | finite negative mantissa exponent => cases infinite
  | infinite negative =>
      cases right with
      | nan => rfl
      | finite negative' mantissa exponent =>
          cases negative <;> simp [Datum.eq, Datum.compare] at equal
      | infinite negative' =>
          have same : negative = negative' := by
            revert equal
            cases negative <;> cases negative' <;> decide
          simp [subDatum, same]

theorem eq_of_nan {left right : Datum} (nan : left.isNan = true ∨ right.isNan = true) :
    left.eq right = false := by
  cases left <;> cases right <;> simp_all [Datum.eq, Datum.compare, Datum.isNan]

end Binary

end Rayzor.Library
