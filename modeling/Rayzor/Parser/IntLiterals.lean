import Rayzor.Parser.Conditions

/-!
Contract: the value of an integer literal.

Owns: the expression an integer literal's text becomes (`intLiteralKind`), which
number a literal spells, and for which literals the expression means it.
-/

namespace Rayzor.Parser

open Library (Datum)

/-- The expressions a literal can become, without their spans. -/
inductive ExprKind where
  | int (value : Int)
  | float (value : Datum)
  | ident (name : String)
  | field (expr : ExprKind) (field : String)
  | call (expr : ExprKind) (args : List ExprKind)

def stripSuffix (mark text : Text) : Option Text :=
  if mark.isSuffixOf text then some (text.take (text.length - mark.length)) else none

def stripPrefix (mark text : Text) : Option Text :=
  if mark.isPrefixOf text then some (text.drop mark.length) else none

inductive LiteralSuffix where
  | i32
  | u32
  | i64
  | f64
  deriving DecidableEq

def LiteralSuffix.spelling : LiteralSuffix → Text
  | i32 => ['i', '3', '2']
  | u32 => ['u', '3', '2']
  | i64 => ['i', '6', '4']
  | f64 => ['f', '6', '4']

def literalSuffixes : List LiteralSuffix := [.i32, .u32, .i64, .f64]

def endsWith (text : Text) (suffix : LiteralSuffix) : Bool := suffix.spelling.isSuffixOf text

def stripNumericNoise (text : Text) : Text :=
  let body := (literalSuffixes.findSome? fun suffix => stripSuffix suffix.spelling text).getD text
  body.filter (· ≠ '_')

/-- The value of a digit, letters counting from ten. -/
def digitOf (c : Char) : Nat :=
  if '0' ≤ c ∧ c ≤ '9' then c.toNat - 48
  else if 'a' ≤ c ∧ c ≤ 'z' then c.toNat - 87
  else if 'A' ≤ c ∧ c ≤ 'Z' then c.toNat - 55
  else 36

def toDigit (radix : Nat) (c : Char) : Option Nat :=
  if digitOf c < radix then some (digitOf c) else none

def fromStrRadix (text : Text) (radix : Nat) : Option Nat :=
  let digits := if text.head? = some '+' then text.tail else text
  if digits = [] then none
  else do
    let values ← digits.mapM (toDigit radix)
    let value := values.foldl (fun value digit => value * radix + digit) 0
    if value < 2 ^ 64 then some value else none

def radixOf (digits : Text) : Nat × Text :=
  match (stripPrefix ['0', 'x'] digits).or (stripPrefix ['0', 'X'] digits) with
  | some body => (16, body)
  | none =>
      match (stripPrefix ['0', 'b'] digits).or (stripPrefix ['0', 'B'] digits) with
      | some body => (2, body)
      | none =>
          if 1 < digits.length ∧ digits.head? = some '0' ∧ (digits[1]?).any Char.isDigit then
            (8, digits.tail)
          else (10, digits)

/-- `v as f64`. -/
def asDouble (value : Nat) : Datum :=
  Library.Binary.decode .binary64 (Library.Binary.ofInt .binary64 value)

/-- `v as u32 as i32 as i64`. -/
def asInt32 (value : Nat) : Int := (BitVec.ofNat 32 value).toInt

/-- `v as i64`. -/
def asInt64 (value : Nat) : Int := (BitVec.ofNat 64 value).toInt

def int64Make (high low : Int) : ExprKind :=
  .call (.field (.field (.ident "haxe") "Int64") "make") [.int high, .int low]

def decimalReading (body : Text) : Datum := (parseDouble body).getD (.finite false 0 0)

def u32Max : Nat := 4294967295

def i32Max : Nat := 2147483647

def intLiteralKind (text : Text) : ExprKind :=
  let suffixed := literalSuffixes.any (endsWith text)
  let digits := stripNumericNoise text
  let (radix, body) := radixOf digits
  match fromStrRadix body radix with
  | some v =>
      if endsWith text .i64 then int64Make (asInt32 (v / 2 ^ 32)) (asInt32 v)
      else if endsWith text .f64 then .float (asDouble v)
      -- `i32` and `u32` keep the 32-bit pattern.
      else if suffixed ∧ v ≤ u32Max then .int (asInt32 v)
      else if suffixed then .int (asInt64 v)
      else if radix ≠ 10 ∧ v ≤ u32Max then .int (asInt32 v)
      else if radix = 10 ∧ v ≤ i32Max then .int v
      else .float (asDouble v)
  | none => .float (decimalReading body)

inductive Form where
  | plain
  | hex (upper : Bool)
  | binary (upper : Bool)
  deriving DecidableEq

namespace Form

def mark : Form → Text
  | plain => []
  | hex upper => ['0', if upper then 'X' else 'x']
  | binary upper => ['0', if upper then 'B' else 'b']

def digitBound : Form → Nat
  | plain => 10
  | hex _ => 16
  | binary _ => 2

def IsDigit (form : Form) (c : Char) : Prop := digitOf c < form.digitBound

instance (form : Form) (c : Char) : Decidable (form.IsDigit c) :=
  inferInstanceAs (Decidable (digitOf c < form.digitBound))

end Form

/-- A mark, digits with underscores between them, and a suffix. Hexadecimal digits may be
missing, and a float suffix makes an integer literal only of binary digits. -/
@[ext] structure IntLiteral where
  form : Form
  body : Text
  suffix : Option LiteralSuffix
  digits : ∀ c ∈ body, form.IsDigit c ∨ c = '_'
  starts : (∀ upper, form ≠ .hex upper) → ∃ c rest, body = c :: rest ∧ form.IsDigit c
  noFloat : suffix = some .f64 → ∃ upper, form = .binary upper

namespace IntLiteral

variable (literal : IntLiteral)

def suffixText : Text := (literal.suffix.map LiteralSuffix.spelling).getD []

def text : Text := literal.form.mark ++ literal.body ++ literal.suffixText

/-- The digits without their separators. -/
def bare (body : Text) : Text := body.filter (· ≠ '_')

/-- Digits without a mark that start with a zero in front of others. -/
def leadsWithZero : Bool :=
  match literal.form, bare literal.body with
  | .plain, '0' :: _ :: _ => true
  | _, _ => false

def isOctal : Bool := literal.leadsWithZero && (bare literal.body).all (digitOf · < 8)

def radix : Nat := if literal.isOctal then 8 else literal.form.digitBound

def valueIn (radix : Nat) (digits : Text) : Nat := Nat.ofDigits radix (digits.map digitOf).reverse

def value : Nat := valueIn literal.radix (bare literal.body)

/-- The literals of a 32-bit integer: decimal ones up to its maximum, others up to 32 bits. A
suffix for 32 bits leaves both forms their pattern. -/
def FitsInt : Prop :=
  if literal.suffix = none ∧ literal.radix = 10 then literal.value ≤ i32Max
  else literal.value ≤ u32Max

/-- The expression is the literal's number: two words for an `Int64`, a `Float` for a suffix
that asks for it and for what does not fit an `Int`, else an `Int` with that pattern. -/
def Means (kind : ExprKind) : Prop :=
  match literal.suffix with
  | some .i64 => ∃ high low : BitVec 32, kind = int64Make high.toInt low.toInt ∧
      high.toNat * 2 ^ 32 + low.toNat = literal.value
  | some .f64 => kind = .float (asDouble literal.value)
  | _ => (literal.FitsInt → kind = .int (asInt32 literal.value)) ∧
      (¬literal.FitsInt → kind = .float (asDouble literal.value))

/-- The digits in front, where the last three are taken for a suffix. -/
def cutDigits : Option Text :=
  match literal.form, literal.suffix with
  | .hex _, none => (stripSuffix ['f', '6', '4'] literal.body).map bare
  | _, _ => none

/-- Where the literal becomes an expression that means it. -/
def Kept : Prop :=
  match literal.cutDigits with
  | some front => 2 ^ 64 ≤ valueIn 16 front ∧ decimalReading front = asDouble literal.value
  | none =>
      bare literal.body ≠ [] ∧
        if literal.leadsWithZero ∧ ¬literal.isOctal then
          literal.suffix ≠ some .i64 ∧ ¬literal.FitsInt
        else if literal.value < 2 ^ 64 then
          literal.suffix = some .i32 ∨ literal.suffix = some .u32 → literal.FitsInt
        else
          literal.suffix ≠ some .i64 ∧
            (literal.radix = 10 ∨ decimalReading (bare literal.body) = asDouble literal.value)

end IntLiteral

end Rayzor.Parser
