import Rayzor.Json.Objects

/-!
Contract: the parser of JSON text.

Owns: the scanners of white space, strings, numbers and literals, and the parser of
values, arrays and objects, on the bytes still to be read. A build that checks
arithmetic stops where a negation overflows.

Does not own: the grammar of JSON. The parse of a number with a fraction, an exponent
or too many digits is a parameter.
-/

namespace Rayzor.Json

open Library

def byte (c : Char) : UInt8 := UInt8.ofNat c.toNat

def quoteByte : UInt8 := 0x22

def backslashByte : UInt8 := 0x5C

/-- `WS`: space, tab, newline, carriage return. -/
def isSpaceByte (b : UInt8) : Bool :=
  b == byte ' ' || b == byte '\t' || b == byte '\n' || b == byte '\r'

def isDigitByte (b : UInt8) : Bool := byte '0' ≤ b && b ≤ byte '9'

/-- What the functions take from the machine and the language's library. -/
structure Platform where
  /-- Arithmetic that overflows panics, as in a debug build. -/
  overflowChecks : Bool
  parseFloat : Bytes → BitVec 64
  printFloat : BitVec 64 → Bytes

inductive Fault where
  | invalidChar (found : UInt8) (position : Nat)
  | overflow
  | outOfFuel
deriving DecidableEq

abbrev Read (α : Type) := α × Bytes

def skipWhitespace (rest : Bytes) : Bytes := rest.dropWhile isSpaceByte

def hexDigit (b : UInt8) : Nat :=
  if byte '0' ≤ b ∧ b ≤ byte '9' then b.toNat - (byte '0').toNat
  else if byte 'a' ≤ b ∧ b ≤ byte 'f' then b.toNat - (byte 'a').toNat + 10
  else if byte 'A' ≤ b ∧ b ≤ byte 'F' then b.toNat - (byte 'A').toNat + 10
  else 0

def isHighSurrogate (cp : Nat) : Bool := 0xD800 ≤ cp && cp ≤ 0xDBFF

def isLowSurrogate (cp : Nat) : Bool := 0xDC00 ≤ cp && cp ≤ 0xDFFF

/-- Up to four digits, and the low half behind a high surrogate. -/
def parseUnicodeEscape (rest : Bytes) : Read Nat :=
  let cp := (rest.take 4).foldl (fun cp b => cp * 16 + hexDigit b) 0
  if isHighSurrogate cp then
    match _isAfter : rest.drop 4 with
    | slash :: u :: more =>
        if slash = backslashByte ∧ u = byte 'u' then
          let low := parseUnicodeEscape more
          if isLowSurrogate low.1 then
            ((cp - 0xD800) * 2 ^ 10 + (low.1 - 0xDC00) + 0x10000, low.2)
          else (0xFFFD, slash :: u :: more)
        else (0xFFFD, slash :: u :: more)
    | after => (0xFFFD, after)
  else (cp, rest.drop 4)
  termination_by rest.length
  decreasing_by
    have height := congrArg List.length _isAfter
    rw [List.length_drop, List.length_cons, List.length_cons] at height
    omega

theorem length_parseUnicodeEscape (rest : Bytes) :
    (parseUnicodeEscape rest).2.length ≤ rest.length := by
  rw [parseUnicodeEscape]
  dsimp only
  split_ifs with high
  · split
    · rename_i slash u more isAfter
      have height := congrArg List.length isAfter
      rw [List.length_drop, List.length_cons, List.length_cons] at height
      have low := length_parseUnicodeEscape more
      split_ifs <;> simp only [List.length_cons] <;> omega
    · simp only [List.length_drop]
      omega
  · simp only [List.length_drop]
    omega
  termination_by rest.length
  decreasing_by
    simp only [List.length_drop, List.length_cons] at height
    omega

def charFromU32 (cp : Nat) : Bytes :=
  if cp.isValidChar then String.utf8EncodeChar (Char.ofNat cp) else []

/-- What an escape stands for, the numbered ones aside. -/
def escaped (letter : UInt8) : Bytes :=
  if letter = quoteByte ∨ letter = backslashByte ∨ letter = byte '/' then [letter]
  else if letter = byte 'n' then [0x0A]
  else if letter = byte 'r' then [0x0D]
  else if letter = byte 't' then [0x09]
  else if letter = byte 'b' then [0x08]
  else if letter = byte 'f' then [0x0C]
  else []

def parseStringLoop (result : Bytes) : Bytes → Read Bytes
  | [] => (result, [])
  | b :: rest =>
      if b = quoteByte then (result, rest)
      else if b = backslashByte then
        match rest with
        | [] => (result, [])
        | letter :: more =>
            if letter = byte 'u' then
              parseStringLoop (result ++ charFromU32 (parseUnicodeEscape more).1)
                (parseUnicodeEscape more).2
            else parseStringLoop (result ++ escaped letter) more
      else if b < 0x80 then parseStringLoop (result ++ [b]) rest
      else if Utf8.isValid (b :: rest) then
        parseStringLoop (result ++ (b :: rest).take (Utf8.scan b rest).1)
          (rest.drop ((Utf8.scan b rest).1 - 1))
      else parseStringLoop result rest
  termination_by rest => rest.length
  decreasing_by
    · have within := length_parseUnicodeEscape more
      simp only [List.length_cons]
      omega
    all_goals simp only [List.length_cons, List.length_drop]; omega

def parseStringSlow (plain rest : Bytes) : Read Bytes :=
  parseStringLoop (if Utf8.isValid plain then plain else []) rest

/-- Neither the closing quote nor an escape. -/
def isPlain (b : UInt8) : Bool := b != quoteByte && b != backslashByte

/-- Behind the opening quote. -/
def parseString (rest : Bytes) : Read Bytes :=
  match rest.dropWhile isPlain with
  | [] => (rest, [])
  | b :: more =>
      if b = quoteByte then (rest.takeWhile isPlain, more)
      else parseStringSlow (rest.takeWhile isPlain) (b :: more)

def parseStringKey (rest : Bytes) : Read Bytes := parseString rest

def parseStringValue (rest : Bytes) : Read Dynamic :=
  (.string (parseString rest).1, (parseString rest).2)

/-- One digit more, and whether a `u64` has overflowed. -/
def accumulate (number : Nat × Bool) (b : UInt8) : Nat × Bool :=
  let shifted := number.1 * 10
  let added := shifted % 2 ^ 64 + (b.toNat - (byte '0').toNat)
  (added % 2 ^ 64, number.2 || decide (2 ^ 64 ≤ shifted) || decide (2 ^ 64 ≤ added))

/-- Behind the digits: the fraction and the exponent, if any. -/
def skipFraction (rest : Bytes) : Bytes :=
  if rest.head? = some (byte '.') then rest.tail.dropWhile isDigitByte else rest

def skipExponent (rest : Bytes) : Bytes :=
  if rest.head? = some (byte 'e') ∨ rest.head? = some (byte 'E') then
    let sign := rest.tail.head?
    (if sign = some (byte '+') ∨ sign = some (byte '-') then rest.tail.tail
      else rest.tail).dropWhile isDigitByte
  else rest

def startsFraction (rest : Bytes) : Bool := rest.head? = some (byte '.')

def startsExponent (rest : Bytes) : Bool :=
  rest.head? = some (byte 'e') || rest.head? = some (byte 'E')

def parseNumber (platform : Platform) (rest : Bytes) : Except Fault (Read Dynamic) :=
  let negative := rest.head? = some (byte '-')
  let digits := if negative then rest.tail else rest
  let number := (digits.takeWhile isDigitByte).foldl accumulate (0, false)
  let fraction := digits.dropWhile isDigitByte
  let exponent := skipFraction fraction
  let after := skipExponent exponent
  if startsFraction fraction ∨ startsExponent exponent ∨ number.2 then
    .ok (.float (platform.parseFloat (rest.take (rest.length - after.length))), after)
  else if negative then
    if platform.overflowChecks ∧ BitVec.ofNat 64 number.1 = BitVec.intMin 64 then .error .overflow
    else .ok (.int (-BitVec.ofNat 64 number.1), after)
  else .ok (.int (BitVec.ofNat 64 number.1), after)

def parseWord (word : List Char) (value : Dynamic) (rest : Bytes) : Read Dynamic :=
  if rest.take word.length = word.map byte then (value, rest.drop word.length) else (.null, rest)

def parseTrue (rest : Bytes) : Read Dynamic := parseWord ['t', 'r', 'u', 'e'] (.bool true) rest

def parseFalse (rest : Bytes) : Read Dynamic := parseWord ['f', 'a', 'l', 's', 'e'] (.bool false) rest

def parseNull (rest : Bytes) : Read Dynamic := parseWord ['n', 'u', 'l', 'l'] .null rest

section

variable (platform : Platform) (size : Nat)

def invalidChar (c : UInt8) (rest : Bytes) : Fault := .invalidChar c (size - rest.length)

mutual

def parseValue : Nat → Bytes → Except Fault (Read Dynamic)
  | 0, _ => .error .outOfFuel
  | fuel + 1, rest =>
      match skipWhitespace rest with
      | [] => .ok (.null, [])
      | c :: more =>
          if c = byte '{' then parseObject fuel more
          else if c = byte '[' then parseArray fuel more
          else if c = quoteByte then .ok (parseStringValue more)
          else if c = byte 't' then .ok (parseTrue (c :: more))
          else if c = byte 'f' then .ok (parseFalse (c :: more))
          else if c = byte 'n' then .ok (parseNull (c :: more))
          else if c = byte '-' ∨ isDigitByte c then parseNumber platform (c :: more)
          else .error (invalidChar size c (c :: more))

/-- Behind the opening brace. -/
def parseObject : Nat → Bytes → Except Fault (Read Dynamic)
  | 0, _ => .error .outOfFuel
  | fuel + 1, rest =>
      match skipWhitespace rest with
      | [] => .ok (.anon false [], [])
      | c :: more =>
          if c = byte '}' then .ok (.anon false [], more)
          else parseMembers fuel [] (c :: more)

/-- The loop over an object's members. -/
def parseMembers : Nat → Fields → Bytes → Except Fault (Read Dynamic)
  | 0, _, _ => .error .outOfFuel
  | fuel + 1, fields, rest =>
      match skipWhitespace rest with
      | [] => .ok (.anon false fields, [])
      | c :: more =>
          if c ≠ quoteByte then .ok (.anon false fields, c :: more)
          else
            match skipWhitespace (parseStringKey more).2 with
            | [] => .ok (.anon false fields, [])
            | colon :: after =>
                if colon ≠ byte ':' then .ok (.anon false fields, after)
                else do
                  let (value, behind) ← parseValue fuel after
                  let fields := setField fields (parseStringKey more).1 value
                  match skipWhitespace behind with
                  | [] => .ok (.anon false fields, [])
                  | mark :: next =>
                      if mark = byte ',' then parseMembers fuel fields next
                      else if mark = byte '}' then .ok (.anon false fields, next)
                      else .ok (.anon false fields, mark :: next)

/-- Behind the opening bracket. -/
def parseArray : Nat → Bytes → Except Fault (Read Dynamic)
  | 0, _ => .error .outOfFuel
  | fuel + 1, rest =>
      match skipWhitespace rest with
      | [] => parseElements fuel [] []
      | c :: more =>
          if c = byte ']' then .ok (.array [], more) else parseElements fuel [] (c :: more)

def parseElements : Nat → List Dynamic → Bytes → Except Fault (Read Dynamic)
  | 0, _, _ => .error .outOfFuel
  | fuel + 1, slots, rest => do
      let (value, behind) ← parseValue fuel rest
      match skipWhitespace behind with
      | [] => .ok (.array (slots ++ [value]), [])
      | mark :: next =>
          if mark = byte ',' then parseElements fuel (slots ++ [value]) next
          else if mark = byte ']' then .ok (.array (slots ++ [value]), next)
          else .ok (.array (slots ++ [value]), mark :: next)

end

end

/-- Fuel for each byte to open a value and its loop. -/
def enoughFuel (text : Bytes) : Nat := 3 * text.length + 3

def haxeJsonParse (platform : Platform) (text : Bytes) : Except Fault Dynamic :=
  if text = [] then .ok .null
  else do
    let (value, rest) ← parseValue platform text.length (enoughFuel text) text
    match skipWhitespace rest with
    | [] => .ok value
    | c :: more => .error (invalidChar text.length c (c :: more))

end Rayzor.Json
