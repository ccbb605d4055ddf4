import Rayzor.Json.Parser

/-!
Contract: JSON values, the texts that denote them, and the boxes that hold them.

Owns: the grammar of JSON in bytes (`IsValue`, `IsText`), for texts without fractions
and exponents, and when a box holds a value (`Holds`). An object's members have no
order in either.
-/

namespace Rayzor.Json

open Library

inductive Json where
  | null
  | bool (value : Bool)
  | int (value : BitVec 64)
  | string (text : List Char)
  | array (values : List Json)
  | object (members : List (List Char × Json))

/-- No object has two members with one name. -/
inductive Distinct : Json → Prop
  | null : Distinct .null
  | bool (value : Bool) : Distinct (.bool value)
  | int (value : BitVec 64) : Distinct (.int value)
  | string (text : List Char) : Distinct (.string text)
  | array {values : List Json} : (∀ value ∈ values, Distinct value) → Distinct (.array values)
  | object {members : List (List Char × Json)} : (members.map Prod.fst).Nodup →
      (∀ member ∈ members, Distinct member.2) → Distinct (.object members)

def IsSpace (text : Bytes) : Prop := ∀ b ∈ text, isSpaceByte b = true

def digitByte (digit : Nat) : UInt8 := UInt8.ofNat (48 + digit)

def number (digits : List Nat) : Nat := digits.foldl (fun number digit => number * 10 + digit) 0

/-- The digits of a number, without leading zeros. -/
structure IsDigits (digits : List Nat) : Prop where
  nonempty : digits ≠ []
  small : ∀ digit ∈ digits, digit < 10
  leading : digits.head? = some 0 → digits = [0]

inductive IsInt : Bytes → BitVec 64 → Prop
  | positive {digits : List Nat} : IsDigits digits → number digits < 2 ^ 63 →
      IsInt (digits.map digitByte) (BitVec.ofNat 64 (number digits))
  | negative {digits : List Nat} : IsDigits digits → number digits ≤ 2 ^ 63 →
      IsInt (byte '-' :: digits.map digitByte) (-BitVec.ofNat 64 (number digits))

def IsHexDigit (b : UInt8) (digit : Nat) : Prop :=
  (digit < 10 ∧ b = UInt8.ofNat (48 + digit)) ∨
    (10 ≤ digit ∧ digit < 16 ∧
      (b = UInt8.ofNat (87 + digit) ∨ b = UInt8.ofNat (55 + digit)))

/-- Four hexadecimal digits. -/
inductive IsHex : Bytes → Nat → Prop
  | mk {b₁ b₂ b₃ b₄ : UInt8} {d₁ d₂ d₃ d₄ : Nat} : IsHexDigit b₁ d₁ → IsHexDigit b₂ d₂ →
      IsHexDigit b₃ d₃ → IsHexDigit b₄ d₄ →
      IsHex [b₁, b₂, b₃, b₄] (((d₁ * 16 + d₂) * 16 + d₃) * 16 + d₄)

/-- What stands behind a backslash, the numbered escapes aside. -/
def escapes : List (UInt8 × Char) :=
  [(quoteByte, Char.ofNat 0x22), (backslashByte, Char.ofNat 0x5C), (byte '/', '/'),
    (byte 'b', Char.ofNat 0x08), (byte 'f', Char.ofNat 0x0C), (byte 'n', Char.ofNat 0x0A),
    (byte 'r', Char.ofNat 0x0D), (byte 't', Char.ofNat 0x09)]

/-- What stands between the quotes, for the text. -/
inductive IsString : Bytes → List Char → Prop
  | nil : IsString [] []
  | plain {c : Char} {rest : Bytes} {text : List Char} : 0x20 ≤ c.toNat →
      c ≠ Char.ofNat 0x22 → c ≠ Char.ofNat 0x5C → IsString rest text →
      IsString (String.utf8EncodeChar c ++ rest) (c :: text)
  | escape {letter : UInt8} {c : Char} {rest : Bytes} {text : List Char} :
      (letter, c) ∈ escapes → IsString rest text →
      IsString (backslashByte :: letter :: rest) (c :: text)
  | unicode {hex rest : Bytes} {cp : Nat} {text : List Char} : IsHex hex cp →
      isHighSurrogate cp = false → isLowSurrogate cp = false → IsString rest text →
      IsString (backslashByte :: byte 'u' :: (hex ++ rest)) (Char.ofNat cp :: text)
  | pair {high low rest : Bytes} {first second : Nat} {text : List Char} : IsHex high first →
      isHighSurrogate first = true → IsHex low second → isLowSurrogate second = true →
      IsString rest text →
      IsString
        (backslashByte :: byte 'u' :: (high ++ backslashByte :: byte 'u' :: (low ++ rest)))
        (Char.ofNat (0x10000 + (first - 0xD800) * 0x400 + (second - 0xDC00)) :: text)

def word (chars : List Char) : Bytes := chars.map byte

def quoted (text : Bytes) : Bytes := quoteByte :: (text ++ [quoteByte])

mutual

inductive IsValue : Bytes → Json → Prop
  | nullWord : IsValue (word ['n', 'u', 'l', 'l']) .null
  | trueWord : IsValue (word ['t', 'r', 'u', 'e']) (.bool true)
  | falseWord : IsValue (word ['f', 'a', 'l', 's', 'e']) (.bool false)
  | int {text : Bytes} {value : BitVec 64} : IsInt text value → IsValue text (.int value)
  | string {text : Bytes} {chars : List Char} : IsString text chars →
      IsValue (quoted text) (.string chars)
  | emptyArray {space : Bytes} : IsSpace space →
      IsValue (byte '[' :: (space ++ [byte ']'])) (.array [])
  | array {text : Bytes} {values : List Json} : IsElements text values →
      IsValue (byte '[' :: (text ++ [byte ']'])) (.array values)
  | emptyObject {space : Bytes} : IsSpace space →
      IsValue (byte '{' :: (space ++ [byte '}'])) (.object [])
  | object {text : Bytes} {listed members : List (List Char × Json)} : IsMembers text listed →
      listed.Perm members → IsValue (byte '{' :: (text ++ [byte '}'])) (.object members)

inductive IsElements : Bytes → List Json → Prop
  | last {before text after : Bytes} {value : Json} : IsSpace before → IsValue text value →
      IsSpace after → IsElements (before ++ (text ++ after)) [value]
  | more {before text after rest : Bytes} {value : Json} {values : List Json} :
      IsSpace before → IsValue text value → IsSpace after → IsElements rest values →
      IsElements (before ++ (text ++ (after ++ byte ',' :: rest))) (value :: values)

inductive IsMembers : Bytes → List (List Char × Json) → Prop
  | last {before key behind middle text after : Bytes} {name : List Char} {value : Json} :
      IsSpace before → IsString key name → IsSpace behind → IsSpace middle →
      IsValue text value → IsSpace after →
      IsMembers (before ++ (quoted key ++ (behind ++ byte ':' :: (middle ++ (text ++ after)))))
        [(name, value)]
  | more {before key behind middle text after rest : Bytes} {name : List Char} {value : Json}
      {members : List (List Char × Json)} :
      IsSpace before → IsString key name → IsSpace behind → IsSpace middle →
      IsValue text value → IsSpace after → IsMembers rest members →
      IsMembers (before ++ (quoted key ++ (behind ++ byte ':' :: (middle ++ (text ++
        (after ++ byte ',' :: rest)))))) ((name, value) :: members)

end

def IsText (text : Bytes) (value : Json) : Prop :=
  ∃ before inner after, text = before ++ (inner ++ after) ∧ IsSpace before ∧
    IsValue inner value ∧ IsSpace after

inductive Holds : Dynamic → Json → Prop
  | null : Holds .null .null
  | bool (value : Bool) : Holds (.bool value) (.bool value)
  | int (value : BitVec 64) : Holds (.int value) (.int value)
  | string (text : List Char) : Holds (.string (Utf8.encode text)) (.string text)
  | array {slots : List Dynamic} {values : List Json} : List.Forall₂ Holds slots values →
      Holds (.array slots) (.array values)
  | object {inline : Bool} {fields : Fields} {members : List (List Char × Json)} :
      (fields.map Prod.fst).Nodup →
      (∀ name, name ∈ anonFields inline fields ↔
        ∃ member ∈ members, Utf8.encode member.1 = name) →
      (∀ member ∈ members, ∀ slot, slot? (Utf8.encode member.1) fields = some slot →
        Holds (boxValueAsDynamic slot) member.2) →
      Holds (.anon inline fields) (.object members)

/-- What the parser keeps as it is: names shorter than a `u32` counts, and where overflow
is checked no number whose negation overflows. -/
inductive Fits (checks : Bool) : Json → Prop
  | null : Fits checks .null
  | bool (value : Bool) : Fits checks (.bool value)
  | int {value : BitVec 64} : (checks = true → value ≠ BitVec.intMin 64) →
      Fits checks (.int value)
  | string (text : List Char) : Fits checks (.string text)
  | array {values : List Json} : (∀ value ∈ values, Fits checks value) →
      Fits checks (.array values)
  | object {members : List (List Char × Json)} :
      (∀ member ∈ members, (Utf8.encode member.1).length < 2 ^ 32) →
      (∀ member ∈ members, Fits checks member.2) → Fits checks (.object members)

end Rayzor.Json
