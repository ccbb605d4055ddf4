import Rayzor.Arrays.HaxeArray
import Rayzor.Views.Boxes

/-!
Contract: the typed and the erased entry points of an array.

Owns: encoding a value of a tag for a slot, decoding a slot for a tag, boxing a slot by its
layout; the functions that read, set, push, insert, unshift and take by tag, those that read
and set through an erased view, and runs of writes.

Does not own: the buffer and its growth; views of byte buffers and generic vectors; null
array pointers.
-/

namespace Rayzor.Views

open Arrays (haxeArrayIntElems haxeArrayBoxedElems haxeArraySlotLayout storedSlotLayout)

structure HaxeArray where
  slots : List Word
  flags : Nat
deriving DecidableEq, Repr

variable (machine : Machine)

def haxeArrayInitElementTag (array : HaxeArray) (tag : Int) : HaxeArray :=
  if tag = ValueTag.dynamic.toI32 then { array with flags := array.flags ||| haxeArrayBoxedElems }
  else array

def haxeArrayMarkSlotLayout (array : HaxeArray) (layout : Nat) : HaxeArray :=
  if array.flags &&& haxeArrayBoxedElems = 0 then
    let flags := array.flags ||| (haxeArraySlotLayout ||| layout * 2 ^ 8 % 2 ^ 64)
    { array with flags := if layout = 3 then flags ||| haxeArrayIntElems else flags }
  else array

def sameLayout (tag : Int) (layout : Nat) : Bool :=
  match ValueTag.fromI32 tag with
  | some .int => layout % 2 ^ 8 == 3
  | some .bool => layout % 2 ^ 8 == 2
  | some .float => layout % 2 ^ 8 == 4
  | some .string => layout % 2 ^ 8 == 5
  | some .reference | some .enum | some .function | some .interface => layout % 2 ^ 8 == 6
  | some .array => layout % 2 ^ 8 == 7
  | some .nullInt => layout % 2 ^ 8 == 3 || layout % 2 ^ 8 == 8
  | some .int64 => layout % 2 ^ 8 == 9
  | _ => false

def boxErasedArraySlot (value : Word) (layout : Nat) : Except Fault Word :=
  match layout % 2 ^ 8 with
  | 2 => pure (haxeBoxBoolPtr (!value.isNull))
  | 3 => if value = .number nullInt then pure .null else haxeBoxIntPtr value
  | 8 => haxeNullIntToDynamic value
  | 9 => do pure (haxeBoxInt64Ptr (← value.bits))
  | 4 => do pure (haxeBoxFloatPtr (← value.bits))
  | 5 => pure (if value.isNull then value else haxeBoxReferencePtr value typeString)
  | 6 =>
      if value.isNull then pure value
      else if layout / 2 ^ 8 = 0 then haxeBoxTypedPtr machine value ValueTag.reference.toI32
      else haxeBoxGenericPtr machine value ValueTag.reference.toI32 layout
  | 7 => pure (if value.isNull then value else haxeBoxArrayPtr value)
  | _ => pure value

/-- What a Dynamic becomes in a raw slot, for `encode_typed_array_slot` and
`haxe_array_set_erased` -/
def unboxForSlot (layout : Nat) (value : Word) : Except Fault Word :=
  match layout % 2 ^ 8 with
  | 2 => do pure (.number (if ← haxeUnboxBoolPtr machine value then 1 else 0))
  | 3 => haxeCoerceDynamicToInt machine value
  | 4 => Word.number <$> haxeUnboxFloatPtr machine value
  | 8 => haxeNullIntFromDynamic machine value
  | 9 => haxeUnboxIntPtr machine value
  | 5 | 6 | 7 => haxeUnboxReferencePtr machine value
  | _ => pure value

def encodeTypedArraySlot (flags : Nat) (value : Word) (tag : Int) (metadata : Nat) :
    Except Fault Word :=
  if flags &&& haxeArrayBoxedElems ≠ 0 then haxeBoxGenericPtr machine value tag metadata
  else
    match if tag = ValueTag.dynamic.toI32 then storedSlotLayout flags else none with
    | some layout => unboxForSlot machine layout value
    | none =>
        if flags &&& haxeArrayIntElems ≠ 0 ∧ tag = ValueTag.float.toI32 then do
          pure (.number (f64AsI64 (← value.bits)))
        else pure value

def nullOf (tag : Int) : Word :=
  if tag = ValueTag.nullInt.toI32 then .number nullInt else .null

def unboxAs (value : Word) (tag : Int) : Except Fault Word :=
  match ValueTag.fromI32 tag with
  | some .int | some .int64 => haxeUnboxIntPtr machine value
  | some .bool => do pure (.number (if ← haxeUnboxBoolPtr machine value then 1 else 0))
  | some .float => Word.number <$> haxeUnboxFloatPtr machine value
  | some .nullInt => haxeNullIntFromDynamic machine value
  | some .string | some .reference | some .array | some .enum | some .function
  | some .interface => haxeUnboxReferencePtr machine value
  | _ => pure value

def decodeSlot (flags : Nat) (bits : Word) (tag : Int) : Except Fault Word :=
  if tag = ValueTag.unresolved.toI32 then
    if flags &&& haxeArrayBoxedElems ≠ 0 then haxeUnboxErasedReturn machine bits else pure bits
  else
    match storedSlotLayout flags with
    | none => pure bits
    | some layout =>
        if sameLayout tag layout then pure bits
        else do unboxAs machine (← boxErasedArraySlot machine bits layout) tag

def haxeArrayGetTyped (array : HaxeArray) (index : Int) (tag : Int) : Except Fault Word :=
  if index < 0 then pure (nullOf tag)
  else
    match array.slots[index.toNat]? with
    | none => pure (nullOf tag)
    | some bits => decodeSlot machine array.flags bits tag

/-- A Dynamic as an erased reader wants it -/
def unboxForTarget (value : Word) (target : Int) : Except Fault Word :=
  match target with
  | 1 => haxeUnboxIntPtr machine value
  | 2 => Word.number <$> haxeUnboxFloatPtr machine value
  | 3 => do pure (.number (if ← haxeUnboxBoolPtr machine value then 1 else 0))
  | 5 => haxeUnboxReferencePtr machine value
  | _ => pure value

/-- `haxe_array_get_erased`: of an array, or of a box over it with the layout it was boxed
with. -/
def haxeArrayGetErased (array : HaxeArray) (boxLayout : Option Nat) (index : Int)
    (target : Int) : Except Fault Word :=
  if index < 0 then pure .null
  else
    match array.slots[index.toNat]? with
    | none => pure .null
    | some value =>
        match (storedSlotLayout array.flags).or boxLayout with
        | none => pure value
        | some layout => do
            let boxed ← boxErasedArraySlot machine value layout
            if boxed.isNull then pure .null else unboxForTarget machine boxed target

/-- `slots[index] = value`; past the end, `fill` comes between. -/
def assigned {α : Type} (slots : List α) (fill : α) (index : Nat) (value : α) : List α :=
  (slots ++ List.replicate (index + 1 - slots.length) fill).set index value

def haxeArraySetI64 (array : HaxeArray) (index : Nat) (value : Word) : HaxeArray :=
  { array with slots := assigned array.slots .null index value }

/-- `haxe_array_set_null_int`: the slots a store past the end opens read as null. -/
def haxeArraySetNullInt (array : HaxeArray) (index : Nat) (value : Word) : HaxeArray :=
  { array with slots := assigned array.slots (.number nullInt) index value }

def haxeArraySetTyped (array : HaxeArray) (index : Nat) (value : Word) (tag : Int)
    (metadata : Nat) : Except Fault HaxeArray := do
  let encoded ← encodeTypedArraySlot machine array.flags value tag metadata
  pure (if tag = ValueTag.nullInt.toI32 ∧ array.flags &&& haxeArrayBoxedElems = 0 then
      haxeArraySetNullInt array index encoded
    else haxeArraySetI64 array index encoded)

/-- An empty array without a layout gets one from its first element. -/
def initIfEmpty (array : HaxeArray) (tag : Int) : HaxeArray :=
  if array.slots = [] ∧ storedSlotLayout array.flags = none then haxeArrayInitElementTag array tag
  else array

def haxeArrayPushTyped (array : HaxeArray) (value : Word) (tag : Int) (metadata : Nat) :
    Except Fault HaxeArray := do
  let array := initIfEmpty array tag
  let encoded ← encodeTypedArraySlot machine array.flags value tag metadata
  pure { array with slots := array.slots ++ [encoded] }

def haxeArrayUnshiftTyped (array : HaxeArray) (value : Word) (tag : Int) (metadata : Nat) :
    Except Fault HaxeArray := do
  let encoded ← encodeTypedArraySlot machine array.flags value tag metadata
  pure { array with slots := encoded :: array.slots }

/-- Where `haxe_array_insert` puts an element -/
def insertPos (length : Nat) (index : Int) : Nat := min (max index 0).toNat length

def haxeArrayInsertTyped (array : HaxeArray) (index : Int) (value : Word) (tag : Int)
    (metadata : Nat) : Except Fault HaxeArray := do
  let encoded ← encodeTypedArraySlot machine array.flags value tag metadata
  pure { array with slots := array.slots.insertIdx (insertPos array.slots.length index) encoded }

def haxeArraySetErased (array : HaxeArray) (boxLayout : Option Nat) (index : Int)
    (value : Word) : Except Fault HaxeArray :=
  if index < 0 then pure array
  else do
    let layout := (storedSlotLayout array.flags).getD (boxLayout.getD 0)
    let encoded ← unboxForSlot machine layout value
    pure (if layout % 2 ^ 8 = 8 then haxeArraySetNullInt array index.toNat encoded
      else haxeArraySetI64 array index.toNat encoded)

/-- A call that changes an array -/
inductive Write where
  | setTyped (index : Nat) (value : Word) (tag : Int) (metadata : Nat)
  | pushTyped (value : Word) (tag : Int) (metadata : Nat)
  | insertTyped (index : Int) (value : Word) (tag : Int) (metadata : Nat)
  | unshiftTyped (value : Word) (tag : Int) (metadata : Nat)
  | setErased (boxLayout : Option Nat) (index : Int) (value : Word)
deriving DecidableEq, Repr

def Write.exec (array : HaxeArray) : Write → Except Fault HaxeArray
  | .setTyped index value tag metadata => haxeArraySetTyped machine array index value tag metadata
  | .pushTyped value tag metadata => haxeArrayPushTyped machine array value tag metadata
  | .insertTyped index value tag metadata =>
      haxeArrayInsertTyped machine array index value tag metadata
  | .unshiftTyped value tag metadata => haxeArrayUnshiftTyped machine array value tag metadata
  | .setErased boxLayout index value => haxeArraySetErased machine array boxLayout index value

def execAll (array : HaxeArray) : List Write → Except Fault HaxeArray
  | [] => pure array
  | write :: rest => do execAll (← write.exec machine array) rest

end Rayzor.Views
