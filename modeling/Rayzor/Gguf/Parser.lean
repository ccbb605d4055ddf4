import Rayzor.Library.Readers
import Rayzor.Library.Utf8Scan

/-!
Contract: the GGUF parser, on a machine with words of 64 bits.

Owns: byte sources that are slices, the readers of `Parser`, `GgufFile::parse`, and the bytes of a
tensor.

Does not own: the layout of a file. A run that reserves more elements than there are bytes left,
needs more calls of `read_value` than the stack holds, divides by zero or overflows stops there:
what such a run goes on to do is not followed.
-/

namespace Rayzor.Gguf

open Library (Reader)
open Library.Reader (many)
open Library.Utf8 (isValid)

inductive GgufError where
  | outOfBounds
  | badMagic
  | unsupportedVersion
  | invalidUtf8
  | unknownMetaType
  | invalidTensorIndex
  | sizeOverflow
  deriving DecidableEq

/-- Why a run stops: with an error it returns, or with a fault. -/
inductive Stop where
  | error (error : GgufError)
  | overReserved
  | stackOverflow
  | dividedByZero
  | overflowed
  deriving DecidableEq

def Stop.isFault : Stop → Bool
  | .error _ => false
  | _ => true

/-- A string of the host: bytes that are UTF-8. -/
structure Utf8String where
  bytes : List UInt8
  valid : isValid bytes = true
  deriving DecidableEq

/-- Floats are kept as their bits. -/
inductive MetaValue where
  | u8 (value : UInt8)
  | i8 (value : Int8)
  | u16 (value : UInt16)
  | i16 (value : Int16)
  | u32 (value : UInt32)
  | i32 (value : Int32)
  | f32 (bits : UInt32)
  | bool (value : Bool)
  | str (value : Utf8String)
  | arr (elem : UInt32) (values : List MetaValue)
  | u64 (value : UInt64)
  | i64 (value : Int64)
  | f64 (bits : UInt64)

structure MetadataKv where
  key : Utf8String
  value : MetaValue

structure TensorInfo where
  name : Utf8String
  dims : List UInt64
  dtype : UInt32
  offset : UInt64

structure GgufFile where
  version : UInt32
  metadata : List MetadataKv
  tensors : List TensorInfo
  alignment : Nat
  dataStart : Nat

/-- A slice has no more bytes than `isize::MAX`. -/
structure ByteSource where
  bytes : List UInt8
  bounded : bytes.length < 2 ^ 63

def ByteSource.readAt (source : ByteSource) (offset len : Nat) : Except GgufError (List UInt8) :=
  if offset + len < 2 ^ 64 ∧ offset + len ≤ source.bytes.length then
    .ok ((source.bytes.drop offset).take len)
  else .error .outOfBounds

def ggufMagic : UInt32 := 0x46554747

def ggufDefaultAlignment : Nat := 32

section Readers

variable (source : ByteSource)

def readExact (len : Nat) : Reader Stop (List UInt8) := fun pos =>
  match source.readAt pos len with
  | .error error => .error (.error error)
  | .ok out => if pos + len < 2 ^ 64 then .ok (out, pos + len) else .error (.error .sizeOverflow)

/-- `from_le_bytes` of the next bytes. -/
def readNumber (width : Nat) : Reader Stop Nat :=
  Library.LittleEndian.value <$> readExact source width

def readU32 : Reader Stop UInt32 := UInt32.ofNat <$> readNumber source 4

def readU64 : Reader Stop UInt64 := UInt64.ofNat <$> readNumber source 8

/-- `Vec::with_capacity`, with the bytes that are left to fill it. -/
def reserve (count : Nat) : Reader Stop Unit := fun pos =>
  if count ≤ source.bytes.length - pos then .ok ((), pos) else .error .overReserved

def fromUtf8 (bytes : List UInt8) : Reader Stop Utf8String :=
  if valid : isValid bytes = true then pure ⟨bytes, valid⟩ else throw (.error .invalidUtf8)

def readString : Reader Stop Utf8String := do
  let len ← readU64 source
  let bytes ← readExact source len.toNat
  fromUtf8 bytes

def readScalar (width : Nat) (make : Nat → MetaValue) : Reader Stop MetaValue :=
  make <$> readNumber source width

/-- `frames` calls fit on the stack. -/
def readValue : Nat → UInt32 → Reader Stop MetaValue
  | 0, _ => throw .stackOverflow
  | frames + 1, tag =>
      match tag.toNat with
      | 0 => readScalar source 1 fun n => .u8 (UInt8.ofNat n)
      | 1 => readScalar source 1 fun n => .i8 (UInt8.ofNat n).toInt8
      | 2 => readScalar source 2 fun n => .u16 (UInt16.ofNat n)
      | 3 => readScalar source 2 fun n => .i16 (UInt16.ofNat n).toInt16
      | 4 => readScalar source 4 fun n => .u32 (UInt32.ofNat n)
      | 5 => readScalar source 4 fun n => .i32 (UInt32.ofNat n).toInt32
      | 6 => readScalar source 4 fun n => .f32 (UInt32.ofNat n)
      | 7 => readScalar source 1 fun n => .bool (n ≠ 0)
      | 8 => .str <$> readString source
      | 9 => do
          let elem ← readU32 source
          let count ← readU64 source
          reserve source count.toNat
          let values ← many (readValue frames elem) count.toNat
          pure (.arr elem values)
      | 10 => readScalar source 8 fun n => .u64 (UInt64.ofNat n)
      | 11 => readScalar source 8 fun n => .i64 (UInt64.ofNat n).toInt64
      | 12 => readScalar source 8 fun n => .f64 (UInt64.ofNat n)
      | _ => throw (.error .unknownMetaType)

def readMetadataKv (frames : Nat) : Reader Stop MetadataKv := do
  let key ← readString source
  let tag ← readU32 source
  let value ← readValue source frames tag
  pure ⟨key, value⟩

def readTensorInfo : Reader Stop TensorInfo := do
  let name ← readString source
  let ndim ← readU32 source
  reserve source ndim.toNat
  let dims ← many (readU64 source) ndim.toNat
  let dtype ← readU32 source
  let offset ← readU64 source
  pure ⟨name, dims, dtype, offset⟩

def readVersion : Reader Stop UInt32 := do
  let magic ← readU32 source
  if magic = ggufMagic then do
    let version ← readU32 source
    if 2 ≤ version ∧ version ≤ 3 then pure version else throw (.error .unsupportedVersion)
  else throw (.error .badMagic)

def readRecords (frames : Nat) : Reader Stop (UInt32 × List MetadataKv × List TensorInfo) := do
  let version ← readVersion source
  let nTensors ← readU64 source
  let nMeta ← readU64 source
  reserve source nMeta.toNat
  let metadata ← many (readMetadataKv source frames) nMeta.toNat
  reserve source nTensors.toNat
  let tensors ← many (readTensorInfo source) nTensors.toNat
  pure (version, metadata, tensors)

end Readers

def alignmentKey : List UInt8 :=
  ['g', 'e', 'n', 'e', 'r', 'a', 'l', '.', 'a', 'l', 'i', 'g', 'n', 'm', 'e', 'n', 't'].map
    fun c => UInt8.ofNat c.toNat

def MetaValue.alignment : MetaValue → Option Nat
  | .u32 value => some value.toNat
  | .i32 value => if 0 < value then some value.toInt.toNat else none
  | .u64 value => some value.toNat
  | .i64 value => if 0 < value then some value.toInt.toNat else none
  | _ => none

def alignmentOf (metadata : List MetadataKv) : Nat :=
  ((metadata.find? fun kv => kv.key.bytes = alignmentKey).bind
    fun kv => kv.value.alignment).getD ggufDefaultAlignment

/-- Where the data starts behind records that end at a position. -/
def dataStartOf (alignment pos : Nat) : Except Stop Nat :=
  if alignment = 0 then .error .dividedByZero
  else if pos % alignment = 0 then .ok pos
  else if pos + (alignment - pos % alignment) < 2 ^ 64 then
    .ok (pos + (alignment - pos % alignment))
  else .error .overflowed

def parse (frames : Nat) (source : ByteSource) : Except Stop GgufFile := do
  let records ← readRecords source frames 0
  let alignment := alignmentOf records.1.2.1
  let dataStart ← dataStartOf alignment records.2
  if dataStart ≤ source.bytes.length then
    pure ⟨records.1.1, records.1.2.1, records.1.2.2, alignment, dataStart⟩
  else throw (.error .outOfBounds)

def checked (n : Nat) : Except GgufError Nat :=
  if n < 2 ^ 64 then .ok n else .error .sizeOverflow

def divCeil (n d : Nat) : Nat := if n = 0 then 0 else (n - 1) / d + 1

def elementCount (info : TensorInfo) : Except GgufError Nat :=
  info.dims.foldlM (fun n d => checked (n * d.toNat)) 1

def tensorByteSize (info : TensorInfo) : Except GgufError Nat := do
  let n ← elementCount info
  match info.dtype.toNat with
  | 0 => checked (n * 4)
  | 1 => checked (n * 2)
  | 8 => do
      let scales ← checked (n / 32 * 2)
      checked (n + scales)
  | 12 => checked (divCeil n 256 * 144)
  | 14 => checked (divCeil n 256 * 210)
  | _ => .error .unknownMetaType

def GgufFile.tensorBytes (file : GgufFile) (source : ByteSource) (idx : Nat) :
    Except GgufError (List UInt8) :=
  match file.tensors[idx]? with
  | none => .error .invalidTensorIndex
  | some info => do
      let len ← tensorByteSize info
      let start ← checked (file.dataStart + info.offset.toNat)
      source.readAt start len

end Rayzor.Gguf
