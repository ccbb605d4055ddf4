import Mathlib
import Rayzor.Library.OrdMap

/-!
Contract: the types and constants of the mid-level representation.

Owns: identifiers, `IrType` with its structural equality, and `IrValue` with
floats kept as their bit patterns.
-/

namespace Rayzor.Ir

/-- A virtual register. -/
abbrev IrId := Nat

abbrev IrBlockId := Nat

abbrev IrFunctionId := Nat

abbrev IrGlobalId := Nat

mutual

inductive IrType where
  | void
  | bool
  | i8
  | i16
  | i32
  | i64
  | u8
  | u16
  | u32
  | u64
  | f32
  | f64
  | dynamic
  | ptr (inner : IrType)
  | ref (inner : IrType)
  | array (element : IrType) (count : Nat)
  | slice (element : IrType)
  | vector (element : IrType) (count : Nat)
  | string
  | function (params : IrTypes) (returnType : IrType) (varargs : Bool)
  | struct (name : String) (fields : StructFields)
  | union (name : String) (variants : UnionVariants)
  | opaqueType (name : String) (size : Nat) (align : Nat)
  | typeVar (name : String)
  | generic (base : IrType) (typeArgs : IrTypes)
  | any
  | nullInt

inductive IrTypes where
  | nil
  | cons (head : IrType) (tail : IrTypes)

inductive StructFields where
  | nil
  | cons (name : String) (ty : IrType) (offset : Nat) (tail : StructFields)

inductive UnionVariants where
  | nil
  | cons (name : String) (tag : Nat) (fields : IrTypes) (tail : UnionVariants)

end

deriving instance DecidableEq for IrType, IrTypes, StructFields, UnionVariants

instance : Inhabited IrType := ⟨.void⟩

def IrTypes.toList : IrTypes → List IrType
  | .nil => []
  | .cons head tail => head :: tail.toList

def StructFields.types : StructFields → List IrType
  | .nil => []
  | .cons _ ty _ tail => ty :: tail.types

/-- An unboxed `Null<Int>` that is null: outside the range of every `Int`, and
zero in its low 32 bits. -/
def NULL_INT : BitVec 64 := BitVec.ofNat 64 (2 ^ 32)

/-- Constants that reach the middle end. Floats are their bit patterns. -/
inductive IrValue where
  | void
  | undef
  | null
  | bool (value : Bool)
  | i8 (value : BitVec 8)
  | i16 (value : BitVec 16)
  | i32 (value : BitVec 32)
  | i64 (value : BitVec 64)
  | u8 (value : BitVec 8)
  | u16 (value : BitVec 16)
  | u32 (value : BitVec 32)
  | u64 (value : BitVec 64)
  | f32 (bits : BitVec 32)
  | f64 (bits : BitVec 64)
  | string (text : String)
  | array (elements : List IrValue)
  | struct (fields : List IrValue)
  | function (func : IrFunctionId)
  | closure (function : IrFunctionId) (environment : IrValue)

/-- A word of the array header `{ ptr@0, len@8, cap@16, elem_size@24, flags@32 }`
that compiled code reads inline. -/
inductive ArrayField where
  | data
  | len
  | flags
  deriving DecidableEq

def ArrayField.byteOffset : ArrayField → Nat
  | .data => 0
  | .len => 8
  | .flags => 32

/-- The register type of the word read. -/
def ArrayField.irType : ArrayField → IrType
  | .data => .ptr .u8
  | .len => .i64
  | .flags => .i64

end Rayzor.Ir
