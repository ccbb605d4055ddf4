import Rayzor.Library.Cuts
import Rayzor.Strings.HaxeString

/-!
Contract: the search in a string, its split at a delimiter, and the join of strings.

Owns: the functions with their loops and the ways in which they fail.
-/

namespace Rayzor.Strings

open Library

/-- How a function ends that does not return: with a panic for a slice out of range or for
memory it cannot have, by touching memory that is not its own, or never. -/
inductive Trap where
  | slice
  | allocation
  | undefined
  | endless
deriving DecidableEq, Repr

def slice (b : List UInt8) (start stop : Nat) : Except Trap (List UInt8) :=
  if start ≤ stop ∧ stop ≤ b.length then pure ((b.take stop).drop start) else throw .slice

def granted (made : Option HaxeString) : Except Trap HaxeString :=
  match made with
  | some s => pure s
  | none => throw .allocation

def searchFrom (haystack needle : List UInt8) (last i : Nat) : Except Trap Int32 :=
  if i ≤ last then do
    let part ← slice haystack i (i + needle.length)
    if part = needle then pure (Int32.ofNat i) else searchFrom haystack needle last (i + 1)
  else pure (-1)
  termination_by last + 1 - i

/-- Byte offset of `needle` at or after byte `start`; -1 when absent. -/
def haxeStringIndexOf (s needle : Option HaxeString) (start : Nat) : Except Trap Int32 :=
  match s, needle with
  | some s, some needle =>
      if needle.bytes.length = 0 ∨ s.bytes.length ≤ start then pure (-1)
      else searchFrom s.bytes needle.bytes (s.bytes.length - needle.bytes.length) start
  | _, _ => pure (-1)

/-- The strings between neighbouring bounds -/
def substrings (s : HaxeString) : List (Nat × Nat) → Except Trap (List HaxeString)
  | [] => pure []
  | pair :: pairs => do
      let part ← granted (haxeStringSubstring (some s) pair.1 pair.2)
      let parts ← substrings s pairs
      pure (part :: parts)

/-- An empty delimiter splits a text into its characters, and what is none into its bytes. -/
def splitCharacters (s : HaxeString) : Except Trap (List HaxeString) :=
  let starts :=
    match Utf8.characters s.bytes with
    | some text => offsets 0 text
    | none => List.range s.bytes.length
  let bounds := starts ++ [s.bytes.length]
  substrings s (bounds.zip bounds.tail)

/-- The loop that counts the parts -/
def countFrom (s delimiter : HaxeString) : Nat → Nat → Nat → Except Trap Nat
  | 0, _, _ => throw .endless
  | fuel + 1, count, pos => do
      let idx ← haxeStringIndexOf (some s) (some delimiter) pos
      if idx < 0 then pure count
      else countFrom s delimiter fuel (count + 1) (idx.toInt.toNat + delimiter.bytes.length)

def storePart (count arrayIdx : Nat) : Except Trap Unit :=
  if arrayIdx < count then pure () else throw .undefined

def fillFrom (s delimiter : HaxeString) (count : Nat) :
    Nat → Nat → Nat → Except Trap (List HaxeString)
  | 0, _, _ => throw .endless
  | fuel + 1, arrayIdx, start => do
      let idx ← haxeStringIndexOf (some s) (some delimiter) start
      if idx < 0 then do
        let part ← granted (haxeStringSubstring (some s) start s.bytes.length)
        storePart count arrayIdx
        pure [part]
      else do
        let part ← granted (haxeStringSubstring (some s) start idx.toInt.toNat)
        storePart count arrayIdx
        let parts ← fillFrom s delimiter count fuel (arrayIdx + 1)
          (idx.toInt.toNat + delimiter.bytes.length)
        pure (part :: parts)

/-- `String.split`. A slot of the array that no part was stored in may not be read. -/
def haxeStringSplitArray (fuel : Nat) (s delimiter : Option HaxeString) :
    Except Trap (List HaxeString) :=
  match s, delimiter with
  | some s, some delimiter =>
      if delimiter.bytes.length = 0 then splitCharacters s
      else do
        let count ← countFrom s delimiter fuel 1 0
        let parts ← fillFrom s delimiter count fuel 0 0
        if parts.length = count then pure parts else throw .undefined
  | _, _ => pure []

/-- The bytes of a string; a null pointer has none. -/
def bytesOf (s : Option HaxeString) : List UInt8 := (s.map HaxeString.bytes).getD []

def totalLength (sepLen : Nat) : List (Option HaxeString) → Nat
  | [] => 0
  | [s] => (bytesOf s).length
  | s :: rest => (bytesOf s).length + sepLen + totalLength sepLen rest

/-- The strings with the separator between them -/
def written (sep : List UInt8) : List (Option HaxeString) → List UInt8
  | [] => []
  | [s] => bytesOf s
  | s :: rest => bytesOf s ++ sep ++ written sep rest

def haxeArrayJoin (arr : Option (List (Option HaxeString))) (sep : Option HaxeString) :
    Except Trap HaxeString :=
  match arr with
  | none => granted (fromParts [])
  | some elements =>
      if elements.length = 0 then granted (fromParts [])
      else
        let totalLen := totalLength (bytesOf sep).length elements
        granted (fromParts ((written (bytesOf sep) elements).take totalLen))

end Rayzor.Strings
