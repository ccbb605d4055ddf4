import Rayzor.Strings.Segmentation

/-!
Contract: strings with the number of characters they remember, and what makes new ones.

Owns: the bytes of a string with a character count (`Text`), counting,
concatenation, the parts of a string, changes of case.
-/

namespace Rayzor.Strings

open Library

/-- A string's bytes with its character count. -/
structure Text where
  bytes : List UInt8
  chars : Nat
deriving DecidableEq, Repr

namespace Text

def oneByteChars (text : Text) : Bool := text.chars == text.bytes.length

def charToByte (text : Text) (index : Nat) : Nat :=
  if text.oneByteChars then min index text.bytes.length else Strings.charToByte text.bytes index

def byteToChar (text : Text) (offset : Nat) : Nat :=
  if text.oneByteChars then min offset text.bytes.length else Strings.byteToChar text.bytes offset

/-- Byte offset `count` characters past byte `start`, clamped. -/
def advanceChars (text : Text) (start count : Nat) : Nat :=
  if text.oneByteChars then min (start + count) text.bytes.length
  else Strings.advanceChars text.bytes start count

end Text

/-- The longest buffer there can be -/
def isizeMax : Nat := 2 ^ 63 - 1

/-- The count of a string whose characters were not counted -/
def charsUnknown : Nat := 2 ^ 64 - 1

structure HaxeString where
  bytes : List UInt8
  chars : Nat
  short : bytes.length ≤ isizeMax
deriving DecidableEq, Repr

def emptyString : HaxeString := ⟨[], 0, Nat.zero_le _⟩

/-- A string in a new buffer. A buffer that cannot be had is a panic. -/
def allocated (bytes : List UInt8) (chars : Nat) : Option HaxeString :=
  if short : bytes.length ≤ isizeMax then some ⟨bytes, chars, short⟩ else none

/-- A string in a new buffer, its characters not yet counted -/
def fromParts (bytes : List UInt8) : Option HaxeString := allocated bytes charsUnknown

/-- The text of `s`, and `s` with its characters counted; no string is a null pointer. -/
def stringText : Option HaxeString → Text × Option HaxeString
  | none => (⟨[], 0⟩, none)
  | some s =>
      if s.bytes.isEmpty then (⟨s.bytes, 0⟩, some s)
      else if s.chars ≤ s.bytes.length then (⟨s.bytes, s.chars⟩, some s)
      else
        let counted := charCount s.bytes
        -- A count past the length that is not the mark of an uncounted string is left alone.
        (⟨s.bytes, counted⟩, some (if s.chars = charsUnknown then { s with chars := counted } else s))

/-- The count that a concatenation takes over -/
def charsOf (s : HaxeString) : Nat :=
  if s.bytes.length = 0 then 0
  else if s.chars ≤ s.bytes.length then s.chars
  else charsUnknown

def nullString : HaxeString := ⟨[0x6E, 0x75, 0x6C, 0x6C], charsUnknown, by decide⟩

def haxeStringConcat (a b : Option HaxeString) : Option HaxeString :=
  let a := a.getD nullString
  let b := b.getD nullString
  let aChars := charsOf a
  let bChars := charsOf b
  allocated (a.bytes ++ b.bytes)
    (if aChars ≠ charsUnknown ∧ bChars ≠ charsUnknown then aChars + bChars else charsUnknown)

/-- The concatenation that writes to a place it is given -/
def haxeStringConcatSret (a b : Option HaxeString) : Option HaxeString :=
  match a, b with
  | none, none => fromParts []
  | a, b => fromParts (((a.map HaxeString.bytes).getD []) ++ ((b.map HaxeString.bytes).getD []))

def boxedText (bytes : List UInt8) (chars : Nat) : Option HaxeString :=
  if bytes.isEmpty then some emptyString else allocated bytes chars

def boxedString (bytes : List UInt8) : Option HaxeString := boxedText bytes charsUnknown

/-- A copy of `text.bytes[start..stop]`, which holds `chars` characters. A slice out of range
is a panic. -/
def subText (text : Text) (start stop chars : Nat) : Option HaxeString :=
  if start ≤ stop ∧ stop ≤ text.bytes.length then
    boxedText ((text.bytes.take stop).drop start) chars
  else none

/-- `String.substr`. A negative `pos` counts from the end; a negative `len` ends that many
characters before the end. -/
def haxeStringSubstrPtr (text : Text) (pos len : Int32) : Option HaxeString :=
  let n : Int := text.chars
  let pos := pos.toInt
  if n ≤ pos then boxedString []
  else
    let pos := if pos < 0 then max (n + pos) 0 else pos
    let len := len.toInt
    let len := if len < 0 then n + len - pos else len
    if len ≤ 0 then boxedString []
    else
      let len := min len (n - pos)
      let start := text.charToByte pos.toNat
      let stop := text.advanceChars start len.toNat
      subText text start stop len.toNat

/-- `String.substring`. Negative indices become 0; where the first is the larger one, they
are swapped. -/
def haxeStringSubstringPtr (text : Text) (startIndex endIndex : Int32) : Option HaxeString :=
  let one := (max startIndex.toInt 0).toNat
  let other := (max endIndex.toInt 0).toNat
  let first := if other < one then other else one
  let last := if other < one then one else other
  let start := text.charToByte first
  let stop := text.charToByte last
  let chars := min last text.chars - min first text.chars
  subText text start stop chars

def haxeStringCharAtPtr (text : Text) (index : Int64) : Option HaxeString :=
  let b := text.bytes
  let offset := if index.toInt < 0 then b.length else text.charToByte index.toInt.toNat
  if b.length ≤ offset then boxedString []
  else boxedText ((b.take (offset + charWidth b offset)).drop offset) 1

def haxeStringSubstring (s : Option HaxeString) (start stop : Nat) : Option HaxeString :=
  match s with
  | none => fromParts []
  | some s =>
      let actualStart := min start s.bytes.length
      let actualEnd := min stop s.bytes.length
      if actualEnd ≤ actualStart then fromParts []
      else fromParts ((s.bytes.take actualEnd).drop actualStart)

/-- The bytes from `start`, so many; the end may wrap. -/
def haxeStringSubstr (s : Option HaxeString) (start length : Nat) : Option HaxeString :=
  match s with
  | none => fromParts []
  | some s =>
      haxeStringSubstring (some s) (min start s.bytes.length)
        (min ((start + length) % 2 ^ 64) s.bytes.length)

/-- `String.toUpperCase` or `String.toLowerCase`, with the case mapping of the texts; bytes
that are no text are copied. -/
def haxeStringCase (mapping : List UInt8 → List UInt8) (s : Option HaxeString) : Option HaxeString :=
  match s with
  | none => some emptyString
  | some s =>
      if s.bytes.isEmpty then some emptyString
      else if (Utf8.characters s.bytes).isSome then fromParts (mapping s.bytes)
      else fromParts s.bytes

variable {b : List UInt8}

theorem single_of_oneByteChars (single : (Text.mk b (charCount b)).oneByteChars = true) :
    codePoints.count b = b.length := by
  rw [Text.oneByteChars, beq_iff_eq] at single
  rw [← charCount_eq]
  exact single

theorem charToByte_counted (b : List UInt8) (index : Nat) :
    (Text.mk b (charCount b)).charToByte index = charToByte b index := by
  rw [Text.charToByte]
  split_ifs with single
  · rw [charToByte_eq, codePoints.advance_of_single (single_of_oneByteChars single)]
  · rfl

theorem byteToChar_counted (b : List UInt8) (offset : Nat) :
    (Text.mk b (charCount b)).byteToChar offset = byteToChar b offset := by
  rw [Text.byteToChar]
  split_ifs with single
  · rw [byteToChar_eq, codePoints.index_of_single (single_of_oneByteChars single), min_assoc,
      min_self]
  · rfl

theorem advanceChars_counted (b : List UInt8) (start count : Nat) :
    (Text.mk b (charCount b)).advanceChars start count = advanceChars b start count := by
  rw [Text.advanceChars]
  split_ifs with isSingle
  · have single := single_of_oneByteChars isSingle
    have left := codePoints.count_drop (min start b.length) b
    rw [codePoints.advance_of_single single, min_assoc, min_self, single, ← List.length_drop] at left
    rw [advanceChars_eq, codePoints.advance_of_single left, List.length_drop]
    dsimp only
    omega
  · rfl

end Rayzor.Strings
