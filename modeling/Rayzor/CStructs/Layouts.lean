import Rayzor.CStructs.Declarations
import Rayzor.Ir.Types
import Rayzor.Library.OrdMap

/-!
Contract: the layouts of classes that are C structs.

Owns: the tables a layout is computed from, the fields of a class, the resolution of a field's
type, and the computation of a layout with its cache.

Does not own: the conversion of types, and the code that reads and writes the fields.
-/

namespace Rayzor.Ir

mutual

/-- The size of a type in memory, on a target with 8-byte words; a generic type has none. -/
def IrType.size : IrType → Option Nat
  | .void => some 0
  | .bool | .i8 | .u8 => some 1
  | .i16 | .u16 => some 2
  | .i32 | .u32 | .f32 => some 4
  | .i64 | .u64 | .f64 | .nullInt => some 8
  | .dynamic | .ptr _ | .ref _ => some 8
  | .array element count => element.size.map (· * count)
  | .slice _ => some 16
  | .string => some 24
  | .function _ _ _ => some 8
  | .struct _ fields => fields.size
  | .union _ variants => variants.size.map (4 + ·)
  | .opaqueType _ size _ => some size
  | .vector element count => element.size.map (· * count)
  | .typeVar _ => some 8
  | .generic _ _ => none
  | .any => some 16

def IrTypes.size : IrTypes → Option Nat
  | .nil => some 0
  | .cons head tail => head.size.bind fun size => tail.size.map (size + ·)

def StructFields.size : StructFields → Option Nat
  | .nil => some 0
  | .cons _ ty _ tail => ty.size.bind fun size => tail.size.map (size + ·)

def UnionVariants.size : UnionVariants → Option Nat
  | .nil => some 0
  | .cons _ _ fields tail => fields.size.bind fun size => tail.size.map (max size)

end

end Rayzor.Ir

namespace Rayzor.CStructs

open Library Ir

abbrev TypeId := Nat

abbrev SymbolId := Nat

inductive TypeKind where
  | abstract (symbolId : SymbolId) (typeArgs : List TypeId)
  | classType (symbolId : SymbolId)
  /-- Interfaces, enums, aliases and type parameters. -/
  | declared (symbolId : SymbolId)
  | other
  deriving DecidableEq

def TypeKind.symbolId : TypeKind → Option SymbolId
  | .abstract symbolId _ => some symbolId
  | .classType symbolId => some symbolId
  | .declared symbolId => some symbolId
  | .other => none

structure Symbol where
  name : Text
  qualifiedName : Option Text
  typeId : TypeId
  isNoMangle : Bool
  isCstruct : Bool
  isIdentifier : ' ' ∉ name

abbrev HirTypeDecl := Option SymbolId

/-- The tables. Identifiers in use have their symbols, and `convertType` is the conversion of types
to those of the representation. -/
structure HirToMirContext where
  typeTable : OrdMap TypeId TypeKind
  symbol : SymbolId → Symbol
  fieldIndexMap : OrdMap SymbolId (TypeId × Nat)
  currentHirTypes : List (TypeId × HirTypeDecl)
  convertType : TypeId → IrType

structure CStructFieldLayout where
  symbolId : SymbolId
  name : Text
  byteOffset : UInt32
  irType : IrType
  cType : Text

structure CStructLayout where
  fields : List CStructFieldLayout
  totalSize : UInt32
  alignment : UInt32
  cName : Text
  depCdefs : List Text
  ownCdef : Text
  cdefString : Text

abbrev Layouts := OrdMap TypeId CStructLayout

namespace HirToMirContext

variable (context : HirToMirContext)

def fieldsForType (typeId : TypeId) : List (SymbolId × Nat) :=
  (context.fieldIndexMap.entries.filter fun entry => entry.2.1 = typeId).map
    fun entry => (entry.1, entry.2.2)

def fieldClassTypes : List TypeId :=
  (OrdMap.ofList (context.fieldIndexMap.values.map fun value => (value.1, ()))).keys

def isOurClass (symbolId : SymbolId) (candidate : TypeId) : Bool :=
  context.currentHirTypes.any fun entry => entry.1 = candidate ∧ entry.2 = some symbolId

/-- The fields of a type in the order of their indices; where it has none, those of the first type
that the class is declared as. -/
def structFields (typeId : TypeId) (symbolId : SymbolId) : List SymbolId :=
  let own := context.fieldsForType typeId
  let fieldsWithIndex := if own.isEmpty then
      ((context.fieldClassTypes.find? (context.isOurClass symbolId)).map
        context.fieldsForType).getD []
    else own
  (fieldsWithIndex.mergeSort fun one other => decide (one.2 ≤ other.2)).map Prod.fst

def cName (symbolId : SymbolId) : Text :=
  let symbol := context.symbol symbolId
  if symbol.isNoMangle then symbol.name
  else symbol.name.map fun char => if char = '.' then '_' else char

end HirToMirContext

def CStructLayout.typedef (layout : CStructLayout) : Text :=
  typedefText (layout.fields.map fun field => (field.cType, field.name)) layout.cName

/-- Push a definition that is not there yet. -/
def pushNew (depCdefs : List Text) (cdef : Text) : List Text :=
  if depCdefs.contains cdef then depCdefs else depCdefs ++ [cdef]

/-- The definitions behind a layout, then its own. -/
def pushLayout (depCdefs : List Text) (layout : CStructLayout) : List Text :=
  pushNew (layout.depCdefs.foldl pushNew depCdefs) layout.typedef

/-- What a pointer's target is in C, with the definitions known so far. -/
structure Pointer where
  cType : Text
  depCdefs : List Text

structure Resolved where
  size : UInt32
  align : UInt32
  cType : Text
  irType : IrType
  depCdefs : List Text
  layouts : Layouts

/-- A computation of layouts: none at the end of the fuel. -/
abbrev Computation := Layouts → TypeId → Option (Option CStructLayout × Layouts)

namespace HirToMirContext

variable (context : HirToMirContext)

def cstructPtrCType (layouts : Layouts) (targetTypeId : TypeId) (depCdefs : List Text) : Pointer :=
  match context.typeTable.get? targetTypeId with
  | some (.classType symbolId) =>
      if (context.symbol symbolId).isCstruct then
        ⟨context.cName symbolId ++ ['*'],
          match layouts.get? targetTypeId with
          | some layout => pushLayout depCdefs layout
          | none => depCdefs⟩
      else ⟨"void*".toList, depCdefs⟩
  | _ => ⟨"void*".toList, depCdefs⟩

/-- `Ptr<T>` and `Box<T>`. -/
def resolvePointer (layouts : Layouts) (typeArgs : List TypeId) (depCdefs : List Text) : Resolved :=
  match typeArgs.head? with
  | some inner =>
      let pointer := context.cstructPtrCType layouts inner depCdefs
      ⟨8, 8, pointer.cType, .i64, pointer.depCdefs, layouts⟩
  | none => ⟨8, 8, "void*".toList, .i64, depCdefs, layouts⟩

def resolveRef (layouts : Layouts) (typeArgs : List TypeId) (depCdefs : List Text) : Resolved :=
  match typeArgs.head? with
  | some inner =>
      let pointer := context.cstructPtrCType layouts inner depCdefs
      let cType := if pointer.cType.getLast? = some '*' then "const ".toList ++ pointer.cType
        else "const ".toList ++ pointer.cType ++ ['*']
      ⟨8, 8, cType, .i64, pointer.depCdefs, layouts⟩
  | none => ⟨8, 8, "const void*".toList, .i64, depCdefs, layouts⟩

def resolvePrimitive (layouts : Layouts) (irType : IrType) (depCdefs : List Text) : Resolved :=
  match irType with
  | .f64 => ⟨8, 8, "double".toList, irType, depCdefs, layouts⟩
  | .i64 => ⟨8, 8, "long".toList, irType, depCdefs, layouts⟩
  | .i32 => ⟨8, 8, "long".toList, .i64, depCdefs, layouts⟩
  | .bool => ⟨4, 4, "int".toList, irType, depCdefs, layouts⟩
  | _ => ⟨8, 8, "long".toList, irType, depCdefs, layouts⟩

def isCString (symbolId : SymbolId) : Bool :=
  (context.symbol symbolId).qualifiedName = some "rayzor.CString".toList

def resolveCstructFieldType (compute : Computation) (layouts : Layouts) (haxeTypeId : TypeId)
    (irType : IrType) (depCdefs : List Text) : Option Resolved :=
  match context.typeTable.get? haxeTypeId with
  | some (.abstract symbolId typeArgs) =>
      let abstractName := (context.symbol symbolId).name
      if abstractName = "Ptr".toList then some (context.resolvePointer layouts typeArgs depCdefs)
      else if abstractName = "Ref".toList then some (context.resolveRef layouts typeArgs depCdefs)
      else if abstractName = "Box".toList then
        some (context.resolvePointer layouts typeArgs depCdefs)
      else if abstractName = "Usize".toList then
        some ⟨8, 8, "size_t".toList, .i64, depCdefs, layouts⟩
      else if abstractName = "CString".toList then
        some ⟨8, 8, "char*".toList, .i64, depCdefs, layouts⟩
      else some (resolvePrimitive layouts irType depCdefs)
  | some (.classType symbolId) =>
      if context.isCString symbolId then some ⟨8, 8, "char*".toList, .i64, depCdefs, layouts⟩
      else if (context.symbol symbolId).isCstruct then
        (compute layouts haxeTypeId).map fun computed =>
          match computed.1 with
          | some nested =>
              let depCdefs := if depCdefs.contains nested.cdefString then depCdefs
                else pushLayout depCdefs nested
              ⟨nested.totalSize, nested.alignment, nested.cName, .i64, depCdefs, computed.2⟩
          | none => resolvePrimitive computed.2 irType depCdefs
      else some (resolvePrimitive layouts irType depCdefs)
  | _ => some (resolvePrimitive layouts irType depCdefs)

end HirToMirContext

/-- Machine arithmetic: the next multiple of a power of two. -/
def alignTo (byteOffset align : UInt32) : UInt32 := (byteOffset + align - 1) &&& ~~~(align - 1)

structure LayoutProgress where
  byteOffset : UInt32
  maxAlign : UInt32
  layoutFields : List CStructFieldLayout
  depCdefs : List Text
  layouts : Layouts

def LayoutProgress.add (progress : LayoutProgress) (symbolId : SymbolId) (name : Text)
    (resolved : Resolved) : LayoutProgress :=
  let byteOffset := if 0 < resolved.align then alignTo progress.byteOffset resolved.align
    else progress.byteOffset
  { byteOffset := byteOffset + resolved.size
    maxAlign := if progress.maxAlign < resolved.align then resolved.align else progress.maxAlign
    layoutFields := progress.layoutFields ++
      [⟨symbolId, name, byteOffset, resolved.irType, resolved.cType⟩]
    depCdefs := resolved.depCdefs
    layouts := resolved.layouts }

def LayoutProgress.finish (progress : LayoutProgress) (cName : Text) : CStructLayout :=
  let ownCdef := typedefText
    (progress.layoutFields.map fun field => (field.cType, field.name)) cName
  { fields := progress.layoutFields
    totalSize := if 0 < progress.maxAlign then alignTo progress.byteOffset progress.maxAlign
      else progress.byteOffset
    alignment := progress.maxAlign
    cName := cName
    depCdefs := progress.depCdefs
    ownCdef := ownCdef
    cdefString := progress.depCdefs.flatten ++ ownCdef }

namespace HirToMirContext

variable (context : HirToMirContext)

def addField (compute : Computation) (progress : LayoutProgress) (field : SymbolId) :
    Option LayoutProgress :=
  let symbol := context.symbol field
  (context.resolveCstructFieldType compute progress.layouts symbol.typeId
    (context.convertType symbol.typeId) progress.depCdefs).map (progress.add field symbol.name)

/-- The layout of a class type, from the cache or field by field. Nested structs are computed with
less fuel. -/
def getOrComputeCstructLayout : Nat → Computation
  | 0, _, _ => none
  | fuel + 1, layouts, typeId =>
      match layouts.get? typeId with
      | some layout => some (some layout, layouts)
      | none =>
          match (context.typeTable.get? typeId).bind TypeKind.symbolId with
          | none => some (none, layouts)
          | some symbolId =>
              ((context.structFields typeId symbolId).foldlM
                (context.addField (getOrComputeCstructLayout fuel)) ⟨0, 1, [], [], layouts⟩).map
                fun progress =>
                  let layout := progress.finish (context.cName symbolId)
                  (some layout, progress.layouts.insert typeId layout)

/-- Requests one after the other, with what each is answered. -/
def requestLayouts (fuel : Nat) (layouts : Layouts) :
    List TypeId → Option (List (Option CStructLayout) × Layouts)
  | [] => some ([], layouts)
  | typeId :: typeIds =>
      (context.getOrComputeCstructLayout fuel layouts typeId).bind fun computed =>
        (requestLayouts fuel computed.2 typeIds).map fun rest =>
          (computed.1 :: rest.1, rest.2)

end HirToMirContext

end Rayzor.CStructs
