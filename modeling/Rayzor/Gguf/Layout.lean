import Rayzor.Gguf.Parser

/-!
Contract: the layout of a GGUF file, and what goes wrong in reading one.

Owns: how values, metadata, tensors and whole files are laid out in bytes, and the counts, nestings
and alignments that no reader should have to trust.

Does not own: the parser. The layout is that of the format; a truth value may be any byte.
-/

namespace Rayzor.Gguf

open Library.LittleEndian (bytes value)
open Library.Reader (FaultyWithin Sequence)

def LaidString (text : Utf8String) (part : List UInt8) : Prop :=
  text.bytes.length < 2 ^ 64 ∧ part = bytes 8 text.bytes.length ++ text.bytes

/-- The types of a fixed width, and what a number of that width stands for. -/
def scalars : List (UInt32 × Nat × (Nat → MetaValue)) :=
  [(0, 1, fun n => .u8 (UInt8.ofNat n)), (1, 1, fun n => .i8 (UInt8.ofNat n).toInt8),
    (2, 2, fun n => .u16 (UInt16.ofNat n)), (3, 2, fun n => .i16 (UInt16.ofNat n).toInt16),
    (4, 4, fun n => .u32 (UInt32.ofNat n)), (5, 4, fun n => .i32 (UInt32.ofNat n).toInt32),
    (6, 4, fun n => .f32 (UInt32.ofNat n)), (7, 1, fun n => .bool (n ≠ 0)),
    (10, 8, fun n => .u64 (UInt64.ofNat n)), (11, 8, fun n => .i64 (UInt64.ofNat n).toInt64),
    (12, 8, fun n => .f64 (UInt64.ofNat n))]

/-- A value of a type in its bytes. An array has the type and the number of its elements in
front of them. -/
inductive Laid : UInt32 → MetaValue → List UInt8 → Prop where
  | scalar {tag : UInt32} {width : Nat} {make : Nat → MetaValue}
      (listed : (tag, width, make) ∈ scalars) (part : List UInt8) (length : part.length = width) :
      Laid tag (make (value part)) part
  | str {text : Utf8String} {part : List UInt8} (laid : LaidString text part) :
      Laid 8 (.str text) part
  | arr (elem : UInt32) (pieces : List (MetaValue × List UInt8)) (few : pieces.length < 2 ^ 64)
      (laid : ∀ piece ∈ pieces, Laid elem piece.1 piece.2) :
      Laid 9 (.arr elem (pieces.map Prod.fst))
        (bytes 4 elem.toNat ++ (bytes 8 pieces.length ++ pieces.flatMap Prod.snd))

theorem laid_arr_iff {elem : UInt32} {values : List MetaValue} {part : List UInt8} :
    Laid 9 (.arr elem values) part ↔ ∃ back,
      part = bytes 4 elem.toNat ++ (bytes 8 values.length ++ back) ∧ values.length < 2 ^ 64 ∧
        Sequence (Laid elem) values back := by
  constructor
  · intro laid
    generalize isTag : (9 : UInt32) = tag at laid
    generalize isArray : MetaValue.arr elem values = array at laid
    cases laid with
    | scalar listed _ _ =>
        rw [← isTag] at listed
        simp [scalars] at listed
    | str => cases isArray
    | arr elem pieces few areLaid =>
        cases isArray
        rw [List.length_map]
        exact ⟨_, rfl, few, pieces, rfl, rfl, areLaid⟩
  · rintro ⟨back, rfl, few, pieces, rfl, rfl, areLaid⟩
    rw [List.length_map] at few ⊢
    exact .arr elem pieces few areLaid

/-- Reading a value of a type comes to a nesting that is too deep, or to an array of more elements
than there are bytes behind its count. -/
inductive FaultyValue : Nat → UInt32 → List UInt8 → Prop where
  | deep {tag : UInt32} {rest : List UInt8} : FaultyValue 0 tag rest
  | count {frames count : Nat} {elem : UInt32} {rest : List UInt8} (fits : count < 2 ^ 64)
      (more : rest.length < count) :
      FaultyValue (frames + 1) 9 (bytes 4 elem.toNat ++ (bytes 8 count ++ rest))
  | element {frames count : Nat} {elem : UInt32} {values : List MetaValue} {front back : List UInt8}
      (fits : count < 2 ^ 64) (fewer : values.length < count)
      (laid : Sequence (Laid elem) values front) (faulty : FaultyValue frames elem back) :
      FaultyValue (frames + 1) 9 (bytes 4 elem.toNat ++ (bytes 8 count ++ (front ++ back)))

def LaidKv (kv : MetadataKv) (part : List UInt8) : Prop :=
  ∃ tag front back, part = front ++ (bytes 4 tag.toNat ++ back) ∧ LaidString kv.key front ∧
    Laid tag kv.value back

def FaultyKv (frames : Nat) (rest : List UInt8) : Prop :=
  ∃ key tag front back, rest = front ++ (bytes 4 tag.toNat ++ back) ∧ LaidString key front ∧
    FaultyValue frames tag back

def wordBytes (words : List UInt64) : List UInt8 := words.flatMap fun word => bytes 8 word.toNat

def LaidTensor (info : TensorInfo) (part : List UInt8) : Prop :=
  info.dims.length < 2 ^ 32 ∧ ∃ front, LaidString info.name front ∧
    part = front ++ (bytes 4 info.dims.length ++ (wordBytes info.dims ++
      (bytes 4 info.dtype.toNat ++ bytes 8 info.offset.toNat)))

def FaultyTensor (rest : List UInt8) : Prop :=
  ∃ name count front back, rest = front ++ (bytes 4 count ++ back) ∧ count < 2 ^ 32 ∧
    LaidString name front ∧ back.length < count

/-- The magic number, the version, and how many tensors and metadata records follow. -/
def headerBytes (version : UInt32) (nTensors nMeta : Nat) : List UInt8 :=
  bytes 4 ggufMagic.toNat ++ (bytes 4 version.toNat ++ (bytes 8 nTensors ++ bytes 8 nMeta))

def Supported (version : UInt32) : Prop := version = 2 ∨ version = 3

def LaidRecords (version : UInt32) (metadata : List MetadataKv) (tensors : List TensorInfo)
    (part : List UInt8) : Prop :=
  Supported version ∧ metadata.length < 2 ^ 64 ∧ tensors.length < 2 ^ 64 ∧ ∃ front back,
    part = headerBytes version tensors.length metadata.length ++ (front ++ back) ∧
      Sequence LaidKv metadata front ∧ Sequence LaidTensor tensors back

/-- Behind the header there are fewer bytes than metadata records, or a metadata record is faulty,
or there are fewer bytes than tensors behind the metadata, or a tensor is faulty. -/
def FaultyRecords (frames : Nat) (list : List UInt8) : Prop :=
  ∃ version nTensors nMeta rest, Supported version ∧ nTensors < 2 ^ 64 ∧ nMeta < 2 ^ 64 ∧
    list = headerBytes version nTensors nMeta ++ rest ∧
      (rest.length < nMeta ∨ FaultyWithin LaidKv (FaultyKv frames) nMeta rest ∨
        ∃ metadata front back, rest = front ++ back ∧ metadata.length = nMeta ∧
          Sequence LaidKv metadata front ∧
            (back.length < nTensors ∨ FaultyWithin LaidTensor FaultyTensor nTensors back))

def FirstAligned (alignment offset start : Nat) : Prop :=
  alignment ∣ start ∧ offset ≤ start ∧
    ∀ other, alignment ∣ other → offset ≤ other → start ≤ other

/-- A whole file: its records, then its data from the first aligned offset on. -/
def LaidFile (file : GgufFile) (list : List UInt8) : Prop :=
  ∃ part rest, list = part ++ rest ∧ LaidRecords file.version file.metadata file.tensors part ∧
    file.alignment = alignmentOf file.metadata ∧
    FirstAligned file.alignment part.length file.dataStart ∧ file.dataStart ≤ list.length

def ZeroAligned (list : List UInt8) : Prop :=
  ∃ version metadata tensors part rest, list = part ++ rest ∧
    LaidRecords version metadata tensors part ∧ alignmentOf metadata = 0

end Rayzor.Gguf
