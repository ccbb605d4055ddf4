import Rayzor.Json.Members

/-!
Contract: the whole grammar of JSON, and what a parser must make of a text of it.

Owns: numbers with fractions and exponents, strings with any escape, objects that
repeat a name (`Writes`, `IsJsonText`), and when a box delivers what was written
(`Delivers`).
-/

namespace Rayzor.Json

open Library

/-- What a text of the grammar says: a number by its value or its literal, a string and a
name by the bytes between the quotes. -/
inductive Tree where
  | null
  | bool (value : Bool)
  | int (value : Int)
  | float (literal : Bytes)
  | string (raw : Bytes)
  | array (elements : List Tree)
  | object (members : List (Bytes × Tree))

def minus (negative : Bool) : Bytes := if negative then [byte '-'] else []

def signed (negative : Bool) (digits : List Nat) : Int :=
  if negative then -(number digits : Int) else number digits

/-- An integer that 64 bits hold. -/
def IsInt64 (value : Int) : Prop := -2 ^ 63 ≤ value ∧ value < 2 ^ 63

/-- One digit or more, leading zeros allowed. -/
structure IsDigitRun (digits : List Nat) : Prop where
  nonempty : digits ≠ []
  small : ∀ digit ∈ digits, digit < 10

inductive IsFraction : Bytes → Prop
  | none : IsFraction []
  | digits {digits : List Nat} : IsDigitRun digits →
      IsFraction (byte '.' :: digits.map digitByte)

inductive IsSign : Bytes → Prop
  | none : IsSign []
  | plus : IsSign [byte '+']
  | minus : IsSign [byte '-']

inductive IsExponent : Bytes → Prop
  | none : IsExponent []
  | digits {mark : UInt8} {sign : Bytes} {digits : List Nat} : mark = byte 'e' ∨ mark = byte 'E' →
      IsSign sign → IsDigitRun digits → IsExponent (mark :: (sign ++ digits.map digitByte))

inductive IsNumber : Bytes → Tree → Prop
  | int {negative : Bool} {digits : List Nat} : IsDigits digits →
      IsInt64 (signed negative digits) →
      IsNumber (minus negative ++ digits.map digitByte) (.int (signed negative digits))
  | float {negative : Bool} {digits : List Nat} {fraction exponent : Bytes} : IsDigits digits →
      IsFraction fraction → IsExponent exponent →
      (fraction = [] → exponent = [] → ¬ IsInt64 (signed negative digits)) →
      IsNumber (minus negative ++ (digits.map digitByte ++ (fraction ++ exponent)))
        (.float (minus negative ++ (digits.map digitByte ++ (fraction ++ exponent))))

/-- What stands between the quotes: characters from the space on, and escapes. -/
inductive IsChars : Bytes → Prop
  | nil : IsChars []
  | plain {c : Char} {rest : Bytes} : 0x20 ≤ c.toNat → c ≠ Char.ofNat 0x22 →
      c ≠ Char.ofNat 0x5C → IsChars rest → IsChars (String.utf8EncodeChar c ++ rest)
  | escape {letter : UInt8} {c : Char} {rest : Bytes} : (letter, c) ∈ escapes → IsChars rest →
      IsChars (backslashByte :: letter :: rest)
  | unicode {hex rest : Bytes} {cp : Nat} : IsHex hex cp → IsChars rest →
      IsChars (backslashByte :: byte 'u' :: (hex ++ rest))

mutual

inductive Writes : Bytes → Tree → Prop
  | nullWord : Writes (word ['n', 'u', 'l', 'l']) .null
  | trueWord : Writes (word ['t', 'r', 'u', 'e']) (.bool true)
  | falseWord : Writes (word ['f', 'a', 'l', 's', 'e']) (.bool false)
  | number {text : Bytes} {tree : Tree} : IsNumber text tree → Writes text tree
  | string {raw : Bytes} : IsChars raw → Writes (quoted raw) (.string raw)
  | emptyArray {space : Bytes} : IsSpace space →
      Writes (byte '[' :: (space ++ [byte ']'])) (.array [])
  | array {text : Bytes} {elements : List Tree} : WritesElements text elements →
      Writes (byte '[' :: (text ++ [byte ']'])) (.array elements)
  | emptyObject {space : Bytes} : IsSpace space →
      Writes (byte '{' :: (space ++ [byte '}'])) (.object [])
  | object {text : Bytes} {members : List (Bytes × Tree)} : WritesMembers text members →
      Writes (byte '{' :: (text ++ [byte '}'])) (.object members)

inductive WritesElements : Bytes → List Tree → Prop
  | last {before text after : Bytes} {tree : Tree} : IsSpace before → Writes text tree →
      IsSpace after → WritesElements (before ++ (text ++ after)) [tree]
  | more {before text after rest : Bytes} {tree : Tree} {elements : List Tree} :
      IsSpace before → Writes text tree → IsSpace after → WritesElements rest elements →
      WritesElements (before ++ (text ++ (after ++ byte ',' :: rest))) (tree :: elements)

inductive WritesMembers : Bytes → List (Bytes × Tree) → Prop
  | last {before key behind middle text after : Bytes} {tree : Tree} :
      IsSpace before → IsChars key → IsSpace behind → IsSpace middle → Writes text tree →
      IsSpace after →
      WritesMembers
        (before ++ (quoted key ++ (behind ++ byte ':' :: (middle ++ (text ++ after)))))
        [(key, tree)]
  | more {before key behind middle text after rest : Bytes} {tree : Tree}
      {members : List (Bytes × Tree)} :
      IsSpace before → IsChars key → IsSpace behind → IsSpace middle → Writes text tree →
      IsSpace after → WritesMembers rest members →
      WritesMembers (before ++ (quoted key ++ (behind ++ byte ':' :: (middle ++ (text ++
        (after ++ byte ',' :: rest)))))) ((key, tree) :: members)

end

def IsJsonText (text : Bytes) (tree : Tree) : Prop :=
  ∃ before inner after, text = before ++ (inner ++ after) ∧ IsSpace before ∧
    Writes inner tree ∧ IsSpace after

/-- The name under which the parser sets a member with these bytes between its quotes. -/
def nameOf (raw : Bytes) : Bytes := storedName (parseStringKey (raw ++ [quoteByte])).1

def IsLast (members : List (Bytes × Tree)) (member : Bytes × Tree) : Prop :=
  ∃ before after, members = before ++ member :: after ∧
    ∀ later ∈ after, nameOf later.1 ≠ nameOf member.1

/-- The box delivers what was written. An object's earlier members of one name are gone. -/
inductive Delivers (platform : Platform) : Dynamic → Tree → Prop
  | null : Delivers platform .null .null
  | bool (value : Bool) : Delivers platform (.bool value) (.bool value)
  | int {bits : BitVec 64} {value : Int} : bits.toInt = value →
      Delivers platform (.int bits) (.int value)
  | float (literal : Bytes) :
      Delivers platform (.float (platform.parseFloat literal)) (.float literal)
  | string (text raw : Bytes) : Delivers platform (.string text) (.string raw)
  | array {slots : List Dynamic} {elements : List Tree} :
      List.Forall₂ (Delivers platform) slots elements →
      Delivers platform (.array slots) (.array elements)
  | object {fields : Fields} {members : List (Bytes × Tree)} :
      (∀ member, IsLast members member → slot? (nameOf member.1) fields ≠ none) →
      (∀ member, IsLast members member → ∀ slot, slot? (nameOf member.1) fields = some slot →
        Delivers platform (boxValueAsDynamic slot) member.2) →
      Delivers platform (.anon false fields) (.object members)

/-- Where arithmetic is checked, the least integer stops the parser. -/
inductive Survives (checks : Bool) : Tree → Prop
  | null : Survives checks .null
  | bool (value : Bool) : Survives checks (.bool value)
  | int {value : Int} : (checks = true → value ≠ -2 ^ 63) → Survives checks (.int value)
  | float (literal : Bytes) : Survives checks (.float literal)
  | string (raw : Bytes) : Survives checks (.string raw)
  | array {elements : List Tree} : (∀ element ∈ elements, Survives checks element) →
      Survives checks (.array elements)
  | object {members : List (Bytes × Tree)} : (∀ member ∈ members, Survives checks member.2) →
      Survives checks (.object members)

theorem Survives.elements {checks : Bool} {elements : List Tree}
    (survives : Survives checks (.array elements)) :
    ∀ element ∈ elements, Survives checks element := by
  cases survives with
  | array each => exact each

theorem Survives.members {checks : Bool} {members : List (Bytes × Tree)}
    (survives : Survives checks (.object members)) :
    ∀ member ∈ members, Survives checks member.2 := by
  cases survives with
  | object each => exact each

/-- An integer that a `u64` holds. -/
def FitsWord (literal : Bytes) : Prop :=
  ∃ negative digits, IsDigits digits ∧ literal = minus negative ++ digits.map digitByte ∧
    number digits < 2 ^ 64

/-- No integer outside of 64 bits with a sign is one of 64 bits without. -/
inductive Whole : Tree → Prop
  | null : Whole .null
  | bool (value : Bool) : Whole (.bool value)
  | int (value : Int) : Whole (.int value)
  | float {literal : Bytes} : ¬ FitsWord literal → Whole (.float literal)
  | string (raw : Bytes) : Whole (.string raw)
  | array {elements : List Tree} : (∀ element ∈ elements, Whole element) →
      Whole (.array elements)
  | object {members : List (Bytes × Tree)} :
      (∀ member, IsLast members member → Whole member.2) → Whole (.object members)

end Rayzor.Json
