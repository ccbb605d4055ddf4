import Rayzor.Interp.Words

/-!
Contract: dynamic boxes and the functions of the runtime that make and open them.

Owns: words, with what a pointer points to held by value; the type ids and value tags; the
address and tag tests that tell a box from an object and from a number; boxing by value tag
and by metadata, and unboxing to each kind of bits.

Does not own: where a box is allocated; the contents of an object past its first two words;
the side table of array boxes; the slots of arrays.
-/

namespace Rayzor.Views

open Library

abbrev Bits := BitVec 64

/-- Something on the heap that is no box, known by its address -/
abbrev Object := Nat

/-- The padding word of a box -/
inductive Mark where
  | none
  | reference
  | erased
deriving DecidableEq, Repr

/-- Eight bytes: a number, or a pointer, listed as what it points to. The boxes of numbers
point to eight bytes, those of a Bool to one; the object behind an Int64 keeps its halves
after its header. -/
inductive Word where
  | number (bits : Bits)
  | int (bits : Bits)
  | float (bits : Bits)
  | bool (value : Bool)
  | int64 (high low : Bits)
  | object (object : Object)
  | box (typeId : Nat) (mark : Mark) (valuePtr : Word)
deriving DecidableEq, Repr

/-- What is not followed further: memory at a number, the number of an address, and memory
that is not laid out as it is read. -/
inductive Fault where
  | numberRead
  | addressRead
  | cellRead
deriving DecidableEq, Repr

def Word.null : Word := .number 0

def Word.isNull (word : Word) : Bool := word == .null

def Word.bits : Word → Except Fault Bits
  | .number bits => .ok bits
  | _ => .error .addressRead

/-- The tests on an address: above the 32-bit tokens, aligned, in user space. -/
def addressShaped (bits : Bits) : Bool :=
  0xffffffff < bits.toNat && bits.toNat % 8 == 0 && bits.toNat < 2 ^ 47

def Word.addressLike : Word → Bool
  | .number bits => addressShaped bits
  | _ => true

/-- `value as i32 as i64` -/
def low32 (bits : Bits) : Bits := (bits.setWidth 32).signExtend 64

def nullInt : Bits := 0x100000000

def f64AsI64 (bits : Bits) : Bits := BitVec.ofInt 64 (Interp.Conv.saturated bits.toNat 64)

def i64AsF64 (value : Bits) : Bits := BitVec.ofNat 64 (Binary.ofInt .binary64 value.toInt)

def f64Zero : Bits := 0

def f64One : Bits := 0x3ff0000000000000

def typeNull : Nat := 1
def typeBool : Nat := 2
def typeInt : Nat := 3
def typeFloat : Nat := 4
def typeString : Nat := 5
def typeAnonObject : Nat := 6
def typeArray : Nat := 7
def typeFunction : Nat := 2 ^ 32 - 2
def typeDynamicToken : Nat := 2 ^ 32 - 3
def typeClassToken : Nat := 2 ^ 32 - 4
def typeEnumToken : Nat := 2 ^ 32 - 5

def stableClassTypeId (name : String) : Nat :=
  let hash : BitVec 32 := name.toUTF8.toList.foldl
    (fun hash byte => (hash ^^^ byte.toBitVec.setWidth 32) * 0x01000193) 0x811c9dc5
  (0x10000000 ||| (hash &&& 0x0fffffff)).toNat

def int64ClassId : Nat := stableClassTypeId "haxe.___Int64"

inductive ValueTag where
  | unresolved
  | int
  | bool
  | float
  | string
  | reference
  | interface
  | function
  | nullInt
  | enum
  | dynamic
  | array
  | int64
deriving DecidableEq, Repr

namespace ValueTag

def fromI32 : Int → Option ValueTag
  | 0 => some .unresolved
  | 1 => some .int
  | 2 => some .bool
  | 4 => some .float
  | 5 => some .string
  | 6 => some .reference
  | 8 => some .interface
  | 9 => some .function
  | 10 => some .nullInt
  | 11 => some .enum
  | 12 => some .dynamic
  | 13 => some .array
  | 14 => some .int64
  | _ => none

def toI32 : ValueTag → Int
  | .unresolved => 0
  | .int => 1
  | .bool => 2
  | .float => 4
  | .string => 5
  | .reference => 6
  | .interface => 8
  | .function => 9
  | .nullInt => 10
  | .enum => 11
  | .dynamic => 12
  | .array => 13
  | .int64 => 14

@[simp] theorem fromI32_toI32 (tag : ValueTag) : fromI32 tag.toI32 = some tag := by
  cases tag <;> rfl

end ValueTag

structure EnumInfo where
  variants : Nat
  /-- Some variant has parameters. -/
  boxed : Bool
deriving DecidableEq, Repr

structure Machine where
  /-- The low half of the first word of an object -/
  typeId : Object → Nat
  /-- The high half of the first word -/
  padding : Object → Nat
  /-- The second word -/
  second : Object → Word
  /-- The first word, where it is a pointer -/
  wrapped : Object → Object
  isClassType : Nat → Bool
  enumInfo : Nat → Option EnumInfo
  /-- `ENUM_VALUE_TYPES` -/
  registeredCell : Object → Option Nat

def referenceBoxMark : Nat := 0x52584258

def erasedBoxMark : Nat := 0x45524153

def anonHandleTag : Nat × Nat := (0x4f4e0001, 0x525a414e)

/-- Padding that nothing wrote is no mark. -/
def Mark.padding : Mark → Nat
  | .none => 0
  | .reference => referenceBoxMark
  | .erased => erasedBoxMark

structure DynamicValue where
  typeId : Nat
  valuePtr : Word
deriving DecidableEq, Repr

namespace DynamicValue

def tagIsBuiltin (dynamic : DynamicValue) : Bool := dynamic.typeId ≤ typeArray

def tagIsKnown (dynamic : DynamicValue) : Bool :=
  dynamic.tagIsBuiltin || 100 < dynamic.typeId

def tagIsCoercible (dynamic : DynamicValue) : Bool :=
  dynamic.typeId ≤ typeString || (100 < dynamic.typeId && dynamic.typeId < 2 ^ 32 - 11)

end DynamicValue

variable (machine : Machine)

def dynamicAt : Word → Except Fault DynamicValue
  | .box typeId _ valuePtr => .ok ⟨typeId, valuePtr⟩
  | .object object => .ok ⟨machine.typeId object, machine.second object⟩
  | .int64 high _ => .ok ⟨int64ClassId, .number high⟩
  | .number _ => .error .numberRead
  | _ => .error .cellRead

/-- The halves of the first word behind a pointer -/
def header : Word → Except Fault (Nat × Nat)
  | .box typeId mark _ => .ok (typeId, mark.padding)
  | .object object => .ok (machine.typeId object, machine.padding object)
  | .int64 _ _ => .ok (int64ClassId, 0)
  | .int bits | .float bits => .ok (bits.toNat % 2 ^ 32, bits.toNat / 2 ^ 32)
  | .number _ => .error .numberRead
  | .bool _ => .error .cellRead

def dynamicBoxAt (ptr : Word) : Except Fault (Option DynamicValue) :=
  if ptr.addressLike then some <$> dynamicAt machine ptr else .ok none

def headerAt (ptr : Word) : Except Fault (Option (Nat × Nat)) :=
  if ptr.addressLike then some <$> header machine ptr else .ok none

/-- `*(ptr as *const i64)` -/
def loadI64 : Word → Except Fault Bits
  | .int bits | .float bits => .ok bits
  | .int64 _ _ => .ok (BitVec.ofNat 64 int64ClassId)
  | .object object =>
      .ok (BitVec.ofNat 64 (machine.typeId object + machine.padding object * 2 ^ 32))
  | .box typeId mark _ => .ok (BitVec.ofNat 64 (typeId + mark.padding * 2 ^ 32))
  | .number _ => .error .numberRead
  | .bool _ => .error .cellRead

/-- `*(ptr as *const bool)` -/
def loadBool : Word → Except Fault Bool
  | .bool value => .ok value
  | .number _ => .error .numberRead
  | _ => .error .cellRead

def isReferenceBox (ptr : Word) : Except Fault Bool := do
  match ← headerAt machine ptr with
  | none => pure false
  | some (_, padding) => pure (padding == referenceBoxMark)

def isRawClassInstance (ptr : Word) : Except Fault Bool := do
  match ← headerAt machine ptr with
  | none => pure false
  | some (typeId, high) => pure (high == 0 && machine.isClassType typeId)

def stampedEnumCellType (ptr : Word) : Except Fault (Option Nat) := do
  match ← headerAt machine ptr with
  | none => pure none
  | some (variant, typeId) =>
      match machine.enumInfo typeId with
      | none => pure none
      | some info =>
          pure (if info.boxed && variant < 2 ^ 31 && variant < info.variants then some typeId
            else none)

def registeredEnumCellType : Word → Option Nat
  | .object object => machine.registeredCell object
  | _ => none

def isAnonHandle (ptr : Word) : Except Fault Bool :=
  match ptr with
  | .number bits =>
      if 0x1000 ≤ bits.toNat ∧ bits.toNat % 8 = 0 then .error .numberRead else .ok false
  | _ => do pure ((← header machine ptr) == anonHandleTag)

def int64FromObject : Word → Except Fault Bits
  | .int64 high low => .ok (high <<< 32 ||| (low.setWidth 32).setWidth 64)
  | .number _ => .error .numberRead
  | _ => .error .cellRead

def enumBoxSlot (dynamic : DynamicValue) : Option Word :=
  if 100 < dynamic.typeId ∧ (machine.enumInfo dynamic.typeId).isSome then some dynamic.valuePtr
  else none

def haxeUnboxInt (dynamic : DynamicValue) : Except Fault Word :=
  if dynamic.typeId = typeInt then Word.number <$> loadI64 machine dynamic.valuePtr
  else if dynamic.typeId = int64ClassId then Word.number <$> int64FromObject dynamic.valuePtr
  else if dynamic.typeId = typeFloat then do
    pure (.number (f64AsI64 (← loadI64 machine dynamic.valuePtr)))
  else if dynamic.typeId = typeBool then do
    pure (.number (if ← loadBool dynamic.valuePtr then 1 else 0))
  else pure ((enumBoxSlot machine dynamic).getD .null)

def haxeUnboxFloat (dynamic : DynamicValue) : Except Fault Bits :=
  if dynamic.typeId = typeFloat then loadI64 machine dynamic.valuePtr
  else if dynamic.typeId = typeInt then i64AsF64 <$> loadI64 machine dynamic.valuePtr
  else if dynamic.typeId = typeBool then do
    pure (if ← loadBool dynamic.valuePtr then f64One else f64Zero)
  else pure f64Zero

def haxeUnboxBool (dynamic : DynamicValue) : Except Fault Bool :=
  if dynamic.typeId = typeBool then loadBool dynamic.valuePtr else pure false

def boxedIntegerValue (dynamic : DynamicValue) : Except Fault (Option Bits) :=
  if dynamic.valuePtr.isNull then pure none
  else if dynamic.typeId = typeInt then some <$> loadI64 machine dynamic.valuePtr
  else if dynamic.typeId = int64ClassId then some <$> int64FromObject dynamic.valuePtr
  else pure none

def erasedBoxBits (ptr : Word) : Except Fault (Option Bits) := do
  match ← dynamicBoxAt machine ptr with
  | none => pure none
  | some dynamic =>
      let (_, padding) ← header machine ptr
      if dynamic.typeId = typeInt ∧ padding = erasedBoxMark then boxedIntegerValue machine dynamic
      else pure none

def haxeUnboxIntPtr (ptr : Word) : Except Fault Word :=
  if ptr.isNull then pure .null
  else do
    if (← isRawClassInstance machine ptr) && (← header machine ptr).1 == int64ClassId then
      Word.number <$> int64FromObject ptr
    else haxeUnboxInt machine (← dynamicAt machine ptr)

def haxeCoerceDynamicToInt (ptr : Word) : Except Fault Word :=
  if ptr.isNull then pure .null
  else do
    match (← dynamicBoxAt machine ptr).filter DynamicValue.tagIsCoercible with
    | some dynamic => haxeUnboxInt machine dynamic
    | none => pure ptr

def haxeUnboxFloatPtr (ptr : Word) : Except Fault Bits :=
  if ptr.isNull then pure f64Zero
  else do
    match ← erasedBoxBits machine ptr with
    | some bits => pure bits
    | none => haxeUnboxFloat machine (← dynamicAt machine ptr)

def haxeUnboxBoolPtr (ptr : Word) : Except Fault Bool :=
  if ptr.isNull then pure false else do haxeUnboxBool (← dynamicAt machine ptr)

def Word.belowFirstPage : Word → Bool
  | .number bits => bits.toNat < 0x1000
  | _ => false

/-- `is_raw_class_instance(ptr) || stamped_enum_cell_type(ptr).is_some() || is_anon_handle(ptr)` -/
def isRawReference (ptr : Word) : Except Fault Bool := do
  if ← isRawClassInstance machine ptr then pure true
  else if (← stampedEnumCellType machine ptr).isSome then pure true
  else isAnonHandle machine ptr

def haxeUnboxReferencePtr (ptr : Word) : Except Fault Word :=
  if ptr.belowFirstPage then pure .null
  else do
    if ← isRawReference machine ptr then pure ptr
    else
      match ← dynamicBoxAt machine ptr with
      | none => pure ptr
      | some dynamic =>
          if (← isReferenceBox machine ptr) || dynamic.typeId == typeFunction ||
              (dynamic.typeId != 0 && dynamic.tagIsBuiltin) then
            pure dynamic.valuePtr
          else pure ptr

def dynamicValueIfBoxed (ptr : Word) : Except Fault (Option DynamicValue) := do
  pure ((← dynamicBoxAt machine ptr).filter DynamicValue.tagIsKnown)

def haxeDynamicIsNull (ptr : Word) : Except Fault Bool :=
  if ptr.isNull then pure true
  else do
    match ← dynamicValueIfBoxed machine ptr with
    | some dynamic => pure (dynamic.typeId == typeNull || dynamic.valuePtr.isNull)
    | none => pure false

def haxeNullIntFromDynamic (ptr : Word) : Except Fault Word :=
  if ptr = .number nullInt then pure (.number nullInt)
  else do
    if ← haxeDynamicIsNull machine ptr then pure (.number nullInt)
    else
      match ← dynamicValueIfBoxed machine ptr with
      | some dynamic => pure (.number (low32 (← (← haxeUnboxInt machine dynamic).bits)))
      | none => pure (.number (low32 (← ptr.bits)))

/-- What `haxe_unbox_erased_return` does with a box that has no mark -/
def unboxByType (ptr : Word) (dynamic : DynamicValue) : Except Fault Word :=
  if dynamic.typeId = typeInt ∨ dynamic.typeId = typeBool then haxeUnboxInt machine dynamic
  else if dynamic.typeId = typeFloat then Word.number <$> haxeUnboxFloat machine dynamic
  else if dynamic.typeId = typeNull then pure .null
  else if dynamic.typeId = typeString ∨ dynamic.typeId = typeFunction then pure dynamic.valuePtr
  else pure ptr

def haxeUnboxErasedReturn (ptr : Word) : Except Fault Word :=
  if ptr.isNull then pure .null
  else do
    if (← stampedEnumCellType machine ptr).isSome then pure ptr
    else
      match ← dynamicBoxAt machine ptr with
      | none => pure ptr
      | some dynamic =>
          if ← isReferenceBox machine ptr then
            pure (((← boxedIntegerValue machine dynamic).map Word.number).getD dynamic.valuePtr)
          else unboxByType machine ptr dynamic

def haxeBoxIntPtr (value : Word) : Except Fault Word := do
  pure (.box typeInt .none (.int (← value.bits)))

def haxeBoxBoolPtr (value : Bool) : Word := .box typeBool .none (.bool value)

def haxeBoxFloatPtr (bits : Bits) : Word := .box typeFloat .none (.float bits)

def haxeBoxReferencePtr (value : Word) (typeId : Nat) : Word := .box typeId .reference value

def haxeBoxInt64Ptr (value : Bits) : Word :=
  haxeBoxReferencePtr (.int64 (value.sshiftRight 32) (low32 value)) int64ClassId

/-- `haxe_box_array_ptr`: the layout goes to the array and the side table of boxes. -/
def haxeBoxArrayPtr (value : Word) : Word := haxeBoxReferencePtr value typeArray

def haxeBoxNull : Word := .box typeNull .none .null

def haxeBoxFunctionPtr (value : Word) : Word :=
  if value.isNull then haxeBoxNull else .box typeFunction .none value

def haxeBoxHaxestringPtr (value : Word) : Word :=
  if value.isNull then haxeBoxNull else .box typeString .none value

def haxeNullIntToDynamic (value : Word) : Except Fault Word :=
  if value = .number nullInt then pure .null
  else do haxeBoxIntPtr (.number (low32 (← value.bits)))

def haxeIfaceIdentity (ptr : Word) : Except Fault Word :=
  match ptr with
  | .number bits => if bits.toNat < 2 ^ 32 then .ok ptr else .error .numberRead
  | .object object =>
      .ok (if machine.padding object = 0 then ptr else .object (machine.wrapped object))
  | _ => do if (← header machine ptr).2 = 0 then pure ptr else .error .addressRead

/-- The tags that make a pointer a box to the Reference case of `haxe_box_typed_ptr` -/
def isBoxTag (typeId : Nat) : Bool :=
  (typeNull ≤ typeId && typeId ≤ typeArray) || typeId == typeFunction ||
    typeId == typeDynamicToken || typeId == typeClassToken || typeId == typeEnumToken

def isAlreadyBox (ptr : Word) : Except Fault Bool := do
  if ← isReferenceBox machine ptr then pure true
  else pure (((← dynamicBoxAt machine ptr).map fun dynamic => isBoxTag dynamic.typeId).getD false)

def Word.isToken : Word → Bool
  | .number bits => bits.toNat < 2 ^ 32
  | _ => false

/-- `stamped_enum_cell_type(value).or_else(|| registered_enum_cell_type(value))` -/
def enumCellType (value : Word) : Except Fault (Option Nat) := do
  pure ((← stampedEnumCellType machine value).or (registeredEnumCellType machine value))

def boxReferenceTag (value : Word) : Except Fault Word :=
  if value.isNull then pure .null
  else if value.isToken then haxeBoxIntPtr value
  else do
    match ← enumCellType machine value with
    | some typeId => pure (haxeBoxReferencePtr value typeId)
    | none =>
        if ← isAnonHandle machine value then pure (haxeBoxReferencePtr value typeAnonObject)
        else if ← isAlreadyBox machine value then pure value
        else do
          let (typeId, _) ← header machine value
          pure (haxeBoxReferencePtr value (if machine.isClassType typeId then typeId else 0))

def haxeBoxTypedPtr (value : Word) (typeTag : Int) : Except Fault Word :=
  match ValueTag.fromI32 typeTag with
  | some .dynamic => pure value
  | some .array => pure (if value.isNull then .null else haxeBoxArrayPtr value)
  | some .int64 => do pure (haxeBoxInt64Ptr (← value.bits))
  | some .function => pure (haxeBoxFunctionPtr value)
  | some .interface => do boxReferenceTag machine (← haxeIfaceIdentity machine value)
  | some .int =>
      match registeredEnumCellType machine value with
      | some typeId => pure (haxeBoxReferencePtr value typeId)
      | none => haxeBoxIntPtr value
  | some .nullInt => haxeNullIntToDynamic value
  | some .bool => pure (haxeBoxBoolPtr (!value.isNull))
  | some .float => do pure (haxeBoxFloatPtr (← value.bits))
  | some .string => pure (haxeBoxHaxestringPtr value)
  | some .reference | some .enum => boxReferenceTag machine value
  | some .unresolved | none => haxeBoxIntPtr value

def haxeBoxClassInstance (value : Word) : Except Fault Word := do
  pure (haxeBoxReferencePtr value (← header machine value).1)

def metadataType (metadata : Nat) : Nat := metadata / 2 ^ 8 % 2 ^ 32

def haxeBoxGenericPtr (value : Word) (typeTag : Int) (metadata : Nat) : Except Fault Word :=
  if metadata % 2 ^ 8 = 7 ∧ value.isNull = false then pure (haxeBoxArrayPtr value)
  else if metadata % 2 ^ 8 = 6 ∧ value.isNull = false then do
    if ← isRawClassInstance machine value then haxeBoxClassInstance machine value
    else pure (haxeBoxReferencePtr value (metadataType metadata))
  else haxeBoxTypedPtr machine value typeTag

end Rayzor.Views
