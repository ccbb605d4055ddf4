import Mathlib

/-!
Contract: values written as bytes one after the other, each read back from where it stands.

Owns: codecs that read a value back with what follows it, for numbers in groups of seven bits,
texts, lists, pairs and choices.
-/

namespace Rayzor.Library

universe u v

/-- Whatever follows a written value, the value is read back and the rest is left. -/
structure Wire (α : Type u) where
  write : α → List UInt8
  read : List UInt8 → Option (α × List UInt8)
  read_write : ∀ value rest, read (write value ++ rest) = some (value, rest)

namespace Wire

variable {α : Type u} {β : Type v}

/-- Seven bits in a byte, lowest first; the top bit says that more follow. The steps are enough
when the number is below `128` to their power. -/
def groups : Nat → Nat → List UInt8
  | 0, _ => [0]
  | steps + 1, number =>
      if number < 128 then [UInt8.ofNat number]
      else UInt8.ofNat (128 + number % 128) :: groups steps (number / 128)

def readGroups : List UInt8 → Option (Nat × List UInt8)
  | [] => none
  | byte :: rest =>
      if byte.toNat < 128 then some (byte.toNat, rest)
      else (readGroups rest).map fun found => (byte.toNat - 128 + 128 * found.1, found.2)

theorem readGroups_groups (rest : List UInt8) : ∀ {steps number : Nat}, number < 128 ^ steps →
    readGroups (groups steps number ++ rest) = some (number, rest)
  | 0, number, fits => by
      have isZero : number = 0 := by
        rw [Nat.pow_zero] at fits
        omega
      subst isZero
      rfl
  | steps + 1, number, fits => by
      unfold groups
      by_cases small : number < 128
      · have same : (UInt8.ofNat number).toNat = number := by
          rw [UInt8.toNat_ofNat']
          omega
        rw [if_pos small, List.cons_append, List.nil_append, readGroups, same, if_pos small]
      · have fits' : number / 128 < 128 ^ steps := by
          apply Nat.div_lt_of_lt_mul
          rwa [Nat.mul_comm, ← Nat.pow_succ]
        have same : (UInt8.ofNat (128 + number % 128)).toNat = 128 + number % 128 := by
          rw [UInt8.toNat_ofNat']
          omega
        have back : 128 + number % 128 - 128 + 128 * (number / 128) = number := by omega
        rw [if_neg small, List.cons_append, readGroups, same, if_neg (by omega),
          readGroups_groups rest fits', Option.map_some, back]

theorem lt_pow_succ (number : Nat) : number < 128 ^ (number + 1) := by
  have below : number + 1 < 128 ^ (number + 1) := Nat.lt_pow_self (by decide)
  omega

def nat : Wire Nat where
  write number := groups (number + 1) number
  read := readGroups
  read_write number rest := readGroups_groups rest (lt_pow_succ number)

/-- Another type whose values are written as values of the first. -/
def image (wire : Wire α) (toWire : β → α) (ofWire : α → Option β)
    (back : ∀ value, ofWire (toWire value) = some value) : Wire β where
  write value := wire.write (toWire value)
  read bytes := (wire.read bytes).bind fun found => (ofWire found.1).map (·, found.2)
  read_write value rest := by
    rw [wire.read_write, Option.bind_some, back, Option.map_some]

def byte : Wire UInt8 where
  write value := [value]
  read
    | [] => none
    | value :: rest => some (value, rest)
  read_write _ _ := rfl

def bool : Wire Bool :=
  byte.image (fun value => if value then 1 else 0)
    (fun value => if value = 0 then some false else if value = 1 then some true else none)
    (by decide)

def word : Wire UInt64 :=
  nat.image UInt64.toNat (fun number => if number < 2 ^ 64 then some (UInt64.ofNat number) else none)
    fun value => by rw [if_pos value.toNat_lt, UInt64.ofNat_toNat]

def pair (first : Wire α) (second : Wire β) : Wire (α × β) where
  write values := first.write values.1 ++ second.write values.2
  read bytes := (first.read bytes).bind fun found =>
    (second.read found.2).map fun found' => ((found.1, found'.1), found'.2)
  read_write values rest := by
    rw [List.append_assoc, first.read_write, Option.bind_some, second.read_write, Option.map_some]

/-- A number of values, one after the other. -/
def readMany (wire : Wire α) : Nat → List UInt8 → Option (List α × List UInt8)
  | 0, bytes => some ([], bytes)
  | count + 1, bytes => (wire.read bytes).bind fun found =>
      (wire.readMany count found.2).map fun found' => (found.1 :: found'.1, found'.2)

theorem readMany_writes (wire : Wire α) (rest : List UInt8) : ∀ values : List α,
    wire.readMany values.length (values.flatMap wire.write ++ rest) = some (values, rest)
  | [] => rfl
  | value :: values => by
      rw [List.flatMap_cons, List.append_assoc, List.length_cons, readMany, wire.read_write,
        Option.bind_some, readMany_writes wire rest values, Option.map_some]

def list (wire : Wire α) : Wire (List α) where
  write values := nat.write values.length ++ values.flatMap wire.write
  read bytes := (nat.read bytes).bind fun found => wire.readMany found.1 found.2
  read_write values rest := by
    rw [List.append_assoc, nat.read_write, Option.bind_some, wire.readMany_writes]

def asBytes (text : String) : List UInt8 := text.toByteArray.data.toList

def fromUtf8 (bytes : List UInt8) : Option String := String.fromUTF8? ⟨bytes.toArray⟩

@[simp] theorem fromUtf8_asBytes (text : String) : fromUtf8 (asBytes text) = some text := by
  unfold fromUtf8 asBytes
  rw [Array.toArray_toList]
  exact dif_pos text.isValidUTF8

def text : Wire String := byte.list.image asBytes fromUtf8 fromUtf8_asBytes

def choice {carried : Nat → Type v} (wires : ∀ number, Wire (carried number)) :
    Wire (Σ number, carried number) where
  write chosen := nat.write chosen.1 ++ (wires chosen.1).write chosen.2
  read bytes := (nat.read bytes).bind fun found =>
    ((wires found.1).read found.2).map fun found' => (⟨found.1, found'.1⟩, found'.2)
  read_write chosen rest := by
    rw [List.append_assoc, nat.read_write, Option.bind_some, (wires chosen.1).read_write,
      Option.map_some]

end Wire

end Rayzor.Library
