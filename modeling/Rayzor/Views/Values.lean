import Rayzor.Views.Typed

/-!
Contract: what words stand for.

Owns: the values of the language that slots hold, and the conversions between its
types; the value of a word under a tag; what the registries guarantee.
-/

namespace Rayzor.Views

open Library

inductive Value where
  | null
  | bool (value : Bool)
  | int (value : BitVec 32)
  | float (bits : Bits)
  | int64 (value : Bits)
  /-- Any object, known by its identity -/
  | reference (object : Object)
deriving DecidableEq, Repr

/-- What the words of a tag stand for -/
inductive Kind where
  | erased
  | dynamic
  | bool
  | int
  | nullInt
  | float
  | int64
  | reference
deriving DecidableEq, Repr

namespace ValueTag

def kind : ValueTag → Kind
  | .unresolved => .erased
  | .int => .int
  | .bool => .bool
  | .float => .float
  | .string | .reference | .interface | .function | .enum | .array => .reference
  | .nullInt => .nullInt
  | .dynamic => .dynamic
  | .int64 => .int64

end ValueTag

/-- What a caller reads by a tag; a number that is no tag reads boxes. -/
def kindOfTag (tag : Int) : Kind := ((ValueTag.fromI32 tag).map ValueTag.kind).getD .dynamic

/-- What an erased caller reads by its target -/
def kindOfTarget (target : Int) : Kind :=
  match target with
  | 1 => .int
  | 2 => .float
  | 3 => .bool
  | 5 => .reference
  | _ => .dynamic

/-- A Float as an Int, by truncation. Past the range of Int the language specifies nothing. -/
def truncatedToInt (bits : Bits) : Option (BitVec 32) :=
  match Binary.decode .binary64 bits.toNat with
  | .finite negative mantissa exponent =>
      let whole := (Datum.finite negative mantissa exponent).truncInt
      if -2 ^ 31 ≤ whole ∧ whole < 2 ^ 31 then some (BitVec.ofInt 32 whole) else none
  | _ => none

/-- The conversions of the language; `none` where it has none. Null becomes the default of a
type that has no null. -/
def Value.convert : Kind → Value → Option Value
  | .erased, value => some value
  | .dynamic, value => some value
  | .bool, .bool value => some (.bool value)
  | .bool, .null => some (.bool false)
  | .int, .int value => some (.int value)
  | .int, .float bits => (truncatedToInt bits).map .int
  | .int, .null => some (.int 0)
  | .nullInt, .int value => some (.int value)
  | .nullInt, .float bits => (truncatedToInt bits).map .int
  | .nullInt, .null => some .null
  | .float, .float bits => some (.float bits)
  | .float, .int value => some (.float (BitVec.ofNat 64 (Binary.ofInt .binary64 value.toInt)))
  | .float, .null => some (.float 0)
  | .int64, .int64 value => some (.int64 value)
  | .int64, .int value => some (.int64 (value.signExtend 64))
  | .int64, .null => some (.int64 0)
  | .reference, .reference object => some (.reference object)
  | .reference, .null => some .null
  | _, _ => none

/-- A type id in a reference box: not one whose boxes hold an integer -/
def ReferenceType (typeId : Nat) : Prop := typeId ≠ typeInt ∧ typeId ≠ int64ClassId

instance (typeId : Nat) : Decidable (ReferenceType typeId) :=
  inferInstanceAs (Decidable (_ ∧ _))

/-- Memory and registries as the runtime keeps them -/
structure Runtime extends Machine where
  /-- `[obj][slots..]`, how a class instance is held as an interface -/
  isFatPointer : Object → Bool
  /-- The first word of a fat pointer is an address. -/
  fat_padding : ∀ object, isFatPointer object → padding object ≠ 0
  wrapped_plain : ∀ object, isFatPointer object → isFatPointer (wrapped object) = false
  /-- The mark tells a box from an object. -/
  unmarked : ∀ object, padding object ≠ referenceBoxMark
  /-- Of the objects, only enum cells begin like a box, and those are stamped. -/
  stamped : ∀ object, isBoxTag (typeId object) →
    ∃ cellType, stampedEnumCellType toMachine (.object object) = .ok (some cellType)
  /-- The backing objects of Int64 are held by value. -/
  noInt64 : ∀ object, typeId object ≠ int64ClassId
  classes : ∀ id, isClassType id → 100 < id ∧ isBoxTag id = false
  int64Class : isClassType int64ClassId = true
  enums : ∀ id, (enumInfo id).isSome → 100 < id ∧ id ≠ int64ClassId ∧ id ≠ referenceBoxMark
  registered : ∀ object id, registeredCell object = some id → (enumInfo id).isSome

/-- The object a pointer stands for: a fat pointer stands for what it wraps. -/
def Runtime.identity (runtime : Runtime) (object : Object) : Object :=
  if runtime.isFatPointer object then runtime.wrapped object else object

variable (runtime : Runtime)

/-- The halves of the object behind an Int64 -/
def joined (high low : Bits) : Bits := high <<< 32 ||| (low.setWidth 32).setWidth 64

def intValue : Word → Option Value
  | .number bits => if low32 bits = bits then some (.int (bits.setWidth 32)) else none
  | _ => none

def boolValue : Word → Option Value
  | .number bits => if bits = 0 then some (.bool false) else if bits = 1 then some (.bool true) else none
  | _ => none

def nullIntValue (word : Word) : Option Value :=
  if word = .number nullInt then some .null else intValue word

def floatValue : Word → Option Value
  | .number bits => some (.float bits)
  | _ => none

def int64Value : Word → Option Value
  | .number bits => some (.int64 bits)
  | _ => none

def referenceValue : Word → Option Value
  | .number bits => if bits = 0 then some .null else none
  | .object object => some (.reference (runtime.identity object))
  | _ => none

def boxValue (typeId : Nat) : Mark → Word → Option Value
  | .none, .number bits => if typeId = typeNull ∧ bits = 0 then some .null else none
  | .none, .int bits => if typeId = typeInt then intValue (.number bits) else none
  | .none, .bool value => if typeId = typeBool then some (.bool value) else none
  | .none, .float bits => if typeId = typeFloat then some (.float bits) else none
  | .none, .object object =>
      if typeId = typeString ∨ typeId = typeFunction then
        some (.reference (runtime.identity object))
      else none
  | .reference, .int64 high low =>
      if typeId = int64ClassId then some (.int64 (joined high low)) else none
  | .reference, .object object =>
      if ReferenceType typeId then some (.reference (runtime.identity object)) else none
  | _, _ => none

def dynamicValue : Word → Option Value
  | .number bits => if bits = 0 then some .null else none
  | .box typeId mark valuePtr => boxValue runtime typeId mark valuePtr
  | .object object => some (.reference (runtime.identity object))
  | .int64 high low => some (.int64 (joined high low))
  | _ => none

/-- The value of a word of a kind. What is written without a tag is taken for an Int. -/
def valueOf (kind : Kind) (word : Word) : Option Value :=
  match kind with
  | .dynamic => dynamicValue runtime word
  | .erased | .int => intValue word
  | .bool => boolValue word
  | .nullInt => nullIntValue word
  | .float => floatValue word
  | .int64 => int64Value word
  | .reference => referenceValue runtime word

/-- An interface is held as a fat pointer or as the class instance itself. -/
def interfaceWord : Word → Bool
  | .object object => runtime.padding object == 0 || runtime.isFatPointer object
  | _ => true

/-- Metadata that names an array or a reference goes with words of references. -/
def metadataFits (kind : Kind) (metadata : Nat) : Prop :=
  (metadata % 2 ^ 8 = 7 → kind = .reference) ∧
    (metadata % 2 ^ 8 = 6 → kind = .reference ∧ ReferenceType (metadataType metadata))

instance (kind : Kind) (metadata : Nat) : Decidable (metadataFits kind metadata) :=
  inferInstanceAs (Decidable (_ ∧ _))

/-- What the raw slots of a layout hold; an Int slot can hold the null of a nullable Int. -/
def storedKind (layout : Nat) : Option Kind :=
  match layout % 2 ^ 8 with
  | 0 => some .dynamic
  | 2 => some .bool
  | 3 => some .nullInt
  | 4 => some .float
  | 5 | 6 | 7 => some .reference
  | 8 => some .nullInt
  | 9 => some .int64
  | _ => none

def Bare (word : Word) : Value → Prop
  | .null => word = .null ∨ word = .number nullInt
  | .bool value => word = .number (if value then 1 else 0)
  | .int value => word = .number (value.signExtend 64)
  | .float bits => word = .number bits
  | .int64 value => word = .number value ∨ ∃ high low, word = .int64 high low ∧ joined high low = value
  | .reference object => ∃ held, word = .object held ∧ runtime.identity held = object

theorem setWidth_signExtend (value : BitVec 32) : (value.signExtend 64).setWidth 32 = value := by
  ext index within
  have inside : index < 64 := by omega
  rw [BitVec.getElem_setWidth, BitVec.getLsbD_signExtend, if_pos within,
    BitVec.getLsbD_eq_getElem within, decide_eq_true inside, Bool.true_and]

theorem low32_signExtend (value : BitVec 32) :
    low32 (value.signExtend 64) = value.signExtend 64 := by
  rw [low32, setWidth_signExtend]

theorem signExtend_ne_nullInt (value : BitVec 32) : value.signExtend 64 ≠ nullInt := by
  intro equal
  have low := setWidth_signExtend value
  rw [equal] at low
  rw [← low] at equal
  exact absurd equal (by decide)

/-- The halves of an Int64 make it up again. -/
theorem joined_halves (value : Bits) : joined (value.sshiftRight 32) (low32 value) = value := by
  have lower : (low32 value).setWidth 32 = value.setWidth 32 := setWidth_signExtend _
  rw [joined, lower]
  ext index within
  simp only [BitVec.getElem_or, BitVec.getElem_shiftLeft, BitVec.getElem_setWidth]
  by_cases high : index < 32
  · simp [high, BitVec.getLsbD_eq_getElem, within]
  · have shifted : 32 + (index - 32) = index := by omega
    have inside : index - 32 < 64 := by omega
    simp [high, shifted, BitVec.getLsbD_setWidth, BitVec.getElem_sshiftRight,
      BitVec.getLsbD_eq_getElem, within]

theorem f64AsI64_truncated {bits : Bits} {value : BitVec 32}
    (truncated : truncatedToInt bits = some value) : f64AsI64 bits = value.signExtend 64 := by
  rw [truncatedToInt] at truncated
  rw [f64AsI64, Interp.Conv.saturated]
  cases decoded : Binary.decode .binary64 bits.toNat with
  | nan => rw [decoded] at truncated; cases truncated
  | infinite negative => rw [decoded] at truncated; cases truncated
  | finite negative mantissa exponent =>
      rw [decoded] at truncated
      dsimp only at truncated ⊢
      generalize (Datum.finite negative mantissa exponent).truncInt = whole at truncated ⊢
      split at truncated
      · rename_i inRange
        have isValue : BitVec.ofInt 32 whole = value := Option.some.inj truncated
        have clamped : max (-2 ^ (64 - 1)) (min (2 ^ (64 - 1) - 1) whole) = whole := by omega
        rw [clamped, ← isValue]
        apply BitVec.eq_of_toInt_eq
        rw [BitVec.toInt_signExtend_of_le (by omega), BitVec.toInt_ofInt, BitVec.toInt_ofInt]
        rw [Int.bmod_eq_of_le (by omega) (by omega), Int.bmod_eq_of_le (by omega) (by omega)]
      · cases truncated

theorem i64AsF64_signExtend (value : BitVec 32) :
    i64AsF64 (value.signExtend 64) = BitVec.ofNat 64 (Binary.ofInt .binary64 value.toInt) := by
  rw [i64AsF64, BitVec.toInt_signExtend_of_le (by omega)]

@[simp] theorem intValue_signExtend (value : BitVec 32) :
    intValue (.number (value.signExtend 64)) = some (.int value) := by
  rw [intValue, if_pos (low32_signExtend value), setWidth_signExtend]

theorem intValue_eq_some {word : Word} {value : Value} (isValue : intValue word = some value) :
    ∃ int, value = .int int ∧ word = .number (int.signExtend 64) := by
  cases word with
  | number bits =>
      rw [intValue] at isValue
      split at isValue
      · rename_i canonical
        exact ⟨bits.setWidth 32, (Option.some.inj isValue).symm, congrArg _ canonical.symm⟩
      · cases isValue
  | _ => cases isValue

@[simp] theorem nullIntValue_signExtend (value : BitVec 32) :
    nullIntValue (.number (value.signExtend 64)) = some (.int value) := by
  have differs : Word.number (value.signExtend 64) ≠ .number nullInt := by
    intro equal
    exact signExtend_ne_nullInt value (Word.number.inj equal)
  rw [nullIntValue, if_neg differs, intValue_signExtend]

theorem nullIntValue_eq_some {word : Word} {value : Value}
    (isValue : nullIntValue word = some value) :
    value = .null ∧ word = .number nullInt ∨
      ∃ int, value = .int int ∧ word = .number (int.signExtend 64) := by
  rw [nullIntValue] at isValue
  split at isValue
  · rename_i isNull
    exact Or.inl ⟨(Option.some.inj isValue).symm, isNull⟩
  · exact Or.inr (intValue_eq_some isValue)

theorem boolValue_eq_some {word : Word} {value : Value} (isValue : boolValue word = some value) :
    ∃ bool : Bool, value = .bool bool ∧ word = .number (if bool then 1 else 0) := by
  cases word with
  | number bits =>
      rw [boolValue] at isValue
      split at isValue
      · rename_i isFalse
        exact ⟨false, (Option.some.inj isValue).symm, congrArg _ isFalse⟩
      · split at isValue
        · rename_i isTrue
          exact ⟨true, (Option.some.inj isValue).symm, congrArg _ isTrue⟩
        · cases isValue
  | _ => cases isValue

@[simp] theorem boolValue_ite (bool : Bool) :
    boolValue (.number (if bool then 1 else 0)) = some (.bool bool) := by
  cases bool <;> rfl

theorem floatValue_eq_some {word : Word} {value : Value} (isValue : floatValue word = some value) :
    ∃ bits, value = .float bits ∧ word = .number bits := by
  cases word with
  | number bits => exact ⟨bits, (Option.some.inj isValue).symm, rfl⟩
  | _ => cases isValue

theorem int64Value_eq_some {word : Word} {value : Value} (isValue : int64Value word = some value) :
    ∃ bits, value = .int64 bits ∧ word = .number bits := by
  cases word with
  | number bits => exact ⟨bits, (Option.some.inj isValue).symm, rfl⟩
  | _ => cases isValue

theorem referenceValue_eq_some {word : Word} {value : Value}
    (isValue : referenceValue runtime word = some value) :
    value = .null ∧ word = .null ∨
      ∃ object, value = .reference (runtime.identity object) ∧ word = .object object := by
  cases word with
  | number bits =>
      rw [referenceValue] at isValue
      split at isValue
      · rename_i isNull
        exact Or.inl ⟨(Option.some.inj isValue).symm, congrArg _ isNull⟩
      · cases isValue
  | object object => exact Or.inr ⟨object, (Option.some.inj isValue).symm, rfl⟩
  | _ => cases isValue

inductive Carries : Word → Value → Prop where
  | null : Carries .null .null
  | nullBox : Carries (.box typeNull .none .null) .null
  | int (value : BitVec 32) : Carries (.box typeInt .none (.int (value.signExtend 64))) (.int value)
  | bool (value : Bool) : Carries (.box typeBool .none (.bool value)) (.bool value)
  | float (bits : Bits) : Carries (.box typeFloat .none (.float bits)) (.float bits)
  | rawInt64 (high low : Bits) : Carries (.int64 high low) (.int64 (joined high low))
  | int64 (high low : Bits) :
      Carries (.box int64ClassId .reference (.int64 high low)) (.int64 (joined high low))
  | rawReference (object : Object) :
      Carries (.object object) (.reference (runtime.identity object))
  | plainReference (typeId : Nat) (object : Object)
      (plain : typeId = typeString ∨ typeId = typeFunction) :
      Carries (.box typeId .none (.object object)) (.reference (runtime.identity object))
  | reference (typeId : Nat) (object : Object) (isReference : ReferenceType typeId) :
      Carries (.box typeId .reference (.object object)) (.reference (runtime.identity object))

theorem carries_of_boxValue {typeId : Nat} {mark : Mark} {valuePtr : Word} {value : Value}
    (isValue : boxValue runtime typeId mark valuePtr = some value) :
    Carries runtime (.box typeId mark valuePtr) value := by
  unfold boxValue at isValue
  split at isValue
  · split at isValue
    · rename_i isNull
      cases isValue
      rw [isNull.1, isNull.2]
      exact .nullBox
    · cases isValue
  · split at isValue
    · rename_i isInt
      have found := intValue_eq_some isValue
      cases found with
      | intro int parts =>
          rw [isInt, parts.1, Word.number.inj parts.2]
          exact .int int
    · cases isValue
  · split at isValue
    · rename_i isBool
      cases isValue
      rw [isBool]
      exact .bool _
    · cases isValue
  · split at isValue
    · rename_i isFloat
      cases isValue
      rw [isFloat]
      exact .float _
    · cases isValue
  · split at isValue
    · rename_i plain
      cases isValue
      exact .plainReference _ _ plain
    · cases isValue
  · split at isValue
    · rename_i isInt64
      cases isValue
      rw [isInt64]
      exact .int64 _ _
    · cases isValue
  · split at isValue
    · rename_i isReference
      cases isValue
      exact .reference _ _ isReference
    · cases isValue
  · cases isValue

theorem carries_of_dynamicValue {word : Word} {value : Value}
    (isValue : dynamicValue runtime word = some value) : Carries runtime word value := by
  cases word with
  | number bits =>
      rw [dynamicValue] at isValue
      split at isValue
      · rename_i isNull
        cases isValue
        rw [isNull]
        exact .null
      · cases isValue
  | box typeId mark valuePtr => exact carries_of_boxValue runtime isValue
  | object object => cases isValue; exact .rawReference object
  | int64 high low => cases isValue; exact .rawInt64 high low
  | _ => cases isValue

theorem Carries.dynamicValue {word : Word} {value : Value} (carries : Carries runtime word value) :
    dynamicValue runtime word = some value := by
  cases carries with
  | int value => exact intValue_signExtend value
  | plainReference typeId object plain => exact if_pos plain
  | reference typeId object isReference => exact if_pos isReference
  | int64 high low => exact if_pos rfl
  | _ => rfl

end Rayzor.Views
