import Rayzor.Json.Parser

/-!
Contract: the printer of JSON text.

Owns: the text so far with its indentation (`Out`), the printing of numbers and
strings, and of values, objects and arrays.
-/

namespace Rayzor.Json

open Library

/-- `indent` is the unit of indentation when printing one member a line. -/
structure Out where
  buf : Bytes
  indent : Option Bytes
  level : Nat

/-- The digits of a positive number, from the last slot of the buffer down. -/
def itoaDigits : Nat → Nat → Bytes → Bytes
  | 0, _, digits => digits
  | slots + 1, number, digits =>
      if number = 0 then digits
      else itoaDigits slots (number / 10) (UInt8.ofNat (48 + number % 10) :: digits)

/-- `-9223372036854775808` -/
def least : List Char :=
  ['-', '9', '2', '2', '3', '3', '7', '2', '0', '3', '6', '8', '5', '4', '7', '7', '5', '8', '0', '8']

def itoa (value : BitVec 64) : Bytes :=
  if value = BitVec.intMin 64 then least.map byte
  else
    let positive := if value.toInt < 0 then (-value).toNat else value.toNat
    let digits := if positive = 0 then [byte '0'] else itoaDigits 20 positive []
    if value.toInt < 0 then byte '-' :: digits else digits

def shortEscape (b : UInt8) : Option UInt8 :=
  if b = quoteByte ∨ b = backslashByte then some b
  else if b = 0x0A then some (byte 'n')
  else if b = 0x0D then some (byte 'r')
  else if b = 0x09 then some (byte 't')
  else if b = 0x08 then some (byte 'b')
  else if b = 0x0C then some (byte 'f')
  else none

def hexByte (digit : Nat) : UInt8 :=
  (['0', '1', '2', '3', '4', '5', '6', '7', '8', '9', 'a', 'b', 'c', 'd', 'e', 'f'].map
    byte).getD digit 0

def controlEscape (b : UInt8) : Bytes :=
  [backslashByte, byte 'u', byte '0', byte '0', hexByte (b.toNat / 16), hexByte (b.toNat % 16)]

/-- The loop of `stringify_string_bytes`, with the bytes not flushed yet. -/
def stringifySegments (segment buf : Bytes) : Bytes → Bytes
  | [] => buf ++ segment
  | b :: rest =>
      match shortEscape b with
      | some letter => stringifySegments [] (buf ++ segment ++ [backslashByte, letter]) rest
      | none =>
          if b < 0x20 then stringifySegments [] (buf ++ segment ++ controlEscape b) rest
          else stringifySegments (segment ++ [b]) buf rest

def stringifyStringBytes (bytes buf : Bytes) : Bytes :=
  stringifySegments [] (buf ++ [quoteByte]) bytes ++ [quoteByte]

namespace Out

def pushStr (out : Out) (text : Bytes) : Out := { out with buf := out.buf ++ text }

def breakLine (out : Out) : Out :=
  match out.indent with
  | some unit => out.pushStr (byte '\n' :: (List.replicate out.level unit).flatten)
  | none => out

/-- Opens a member: separator, then line break and indent. -/
def member (first : Bool) (out : Out) : Out :=
  (if first then { out with level := out.level + 1 } else out.pushStr [byte ',']).breakLine

/-- Closes a container that printed members. -/
def close (any : Bool) (out : Out) : Out :=
  if any then breakLine { out with level := out.level - 1 } else out

def key (name : Bytes) (out : Out) : Out :=
  let named := pushStr { out with buf := stringifyStringBytes name out.buf } [byte ':']
  if out.indent.isSome then named.pushStr [byte ' '] else named

end Out

def isFunctionValue : Dynamic → Bool
  | .function => true
  | _ => false

mutual

def stringifyValue (platform : Platform) (value : Dynamic) (out : Out) : Out :=
  match value with
  | .null => out.pushStr (['n', 'u', 'l', 'l'].map byte)
  | .int value => out.pushStr (itoa value)
  | .float bits => out.pushStr (platform.printFloat bits)
  | .bool value =>
      out.pushStr ((if value then ['t', 'r', 'u', 'e'] else ['f', 'a', 'l', 's', 'e']).map byte)
  | .string text =>
      if text = [] then out.pushStr [quoteByte, quoteByte]
      else { out with buf := stringifyStringBytes text out.buf }
  | .anon inline fields =>
      let members := stringifyMembers platform inline fields (anonFields inline fields) true
        (out.pushStr [byte '{'])
      (members.2.close (!members.1)).pushStr [byte '}']
  | .array slots =>
      ((stringifyElements platform slots true (out.pushStr [byte '['])).close
        (decide (0 < slots.length))).pushStr [byte ']']
  | .function => out.pushStr (quoteByte :: (['<', 'f', 'u', 'n', '>'].map byte ++ [quoteByte]))
  termination_by (sizeOf value, 1, 0)
  decreasing_by
    · exact Prod.Lex.right _ (Prod.Lex.left _ _ Nat.zero_lt_one)
    · exact Prod.Lex.left _ _ (by rw [Dynamic.array.sizeOf_spec]; omega)

/-- The loop of `stringify_anon_object` over the names, with whether none is printed. -/
def stringifyMembers (platform : Platform) (inline : Bool) (fields : Fields) (names : List Bytes)
    (first : Bool) (out : Out) : Bool × Out :=
  match names with
  | [] => (first, out)
  | name :: rest =>
      if isFunctionValue (getField fields name) then
        stringifyMembers platform inline fields rest first out
      else
        stringifyMembers platform inline fields rest false
          (stringifyValue platform (getField fields name) ((out.member first).key name))
  termination_by (sizeOf (Dynamic.anon inline fields), 0, names.length)
  decreasing_by
    · exact Prod.Lex.right _ (Prod.Lex.right _ (Nat.lt_succ_self _))
    · exact Prod.Lex.left _ _ (sizeOf_getField inline fields name)
    · exact Prod.Lex.right _ (Prod.Lex.right _ (Nat.lt_succ_self _))

/-- The loop of `stringify_array`. -/
def stringifyElements (platform : Platform) (slots : List Dynamic) (first : Bool) (out : Out) :
    Out :=
  match slots with
  | [] => out
  | slot :: rest =>
      stringifyElements platform rest false (stringifyValue platform slot (out.member first))
  termination_by (sizeOf slots, 0, 0)
  decreasing_by
    · exact Prod.Lex.left _ _ (by rw [List.cons.sizeOf_spec]; omega)
    · exact Prod.Lex.left _ _ (by rw [List.cons.sizeOf_spec]; omega)

end

/-- `haxe_json_stringify`, and `haxe_json_stringify_pretty` when there is an indent. -/
def haxeJsonStringify (platform : Platform) (indent : Option Bytes) (value : Dynamic) : Bytes :=
  (stringifyValue platform value ⟨[], indent.map Utf8.lossy, 0⟩).buf

end Rayzor.Json
