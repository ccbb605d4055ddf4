import Rayzor.Gguf.Layout

/-!
Contract: what the readers of the parser read.
-/

namespace Rayzor.Gguf

open Library (Reader)
open Library.LittleEndian (bytes value bytes_value value_bytes value_lt length_bytes)
open Library.Reader

def fault (stop : Stop) : Prop := stop.isFault = true

variable {source : ByteSource}

abbrev ReadsFrom {α : Type} (source : ByteSource) (reader : Reader Stop α)
    (laid : α → List UInt8 → Prop) (faulty : List UInt8 → Prop) : Prop :=
  Reads source.bytes fault reader laid faulty

theorem not_fault_error (error : GgufError) : ¬fault (.error error) := Bool.false_ne_true

theorem readExact_eq {pos len : Nat} (inside : pos ≤ source.bytes.length) :
    readExact source len pos = if len ≤ (source.bytes.drop pos).length then
      .ok ((source.bytes.drop pos).take len, pos + len) else .error (.error .outOfBounds) := by
  have bounded := source.bounded
  unfold readExact ByteSource.readAt
  rw [List.length_drop]
  by_cases enough : len ≤ source.bytes.length - pos
  · rw [if_pos enough, if_pos (by omega)]
    simp only
    rw [if_pos (by omega)]
  · rw [if_neg enough, if_neg (by omega)]

theorem reads_readExact (len : Nat) : ReadsFrom source (readExact source len)
    (fun out part => out = part ∧ part.length = len) fun _ => False where
  sound pos inside out pos' read := by
    rw [readExact_eq inside] at read
    split_ifs at read with enough
    cases read
    have length := List.length_take_of_le enough
    exact ⟨_, _, (List.take_append_drop len _).symm, by rw [length], rfl, length⟩
  complete pos inside out part rest split isLaid := by
    obtain ⟨rfl, rfl⟩ := isLaid
    left
    have enough : out.length ≤ (source.bytes.drop pos).length := by
      rw [split, List.length_append]
      exact Nat.le_add_right _ _
    rw [readExact_eq inside, if_pos enough, split, List.take_left]
  faults pos inside := by
    refine iff_of_false ?_ id
    rintro ⟨stop, stopped, isFault⟩
    rw [readExact_eq inside] at stopped
    split_ifs at stopped
    cases stopped
    cases isFault

theorem reads_readNumber (width : Nat) : ReadsFrom source (readNumber source width)
    (fun number part => number = value part ∧ part.length = width) fun _ => False := by
  apply (reads_map value (reads_readExact width)).congr
  · intro number part
    constructor
    · rintro ⟨out, rfl, rfl, length⟩
      exact ⟨rfl, length⟩
    · rintro ⟨rfl, length⟩
      exact ⟨part, rfl, rfl, length⟩
  · exact fun _ => Iff.rfl

theorem reads_word {α : Type} (width : Nat) (ofNat : Nat → α) (toNat : α → Nat)
    (toNat_lt : ∀ word, toNat word < 256 ^ width) (ofNat_toNat : ∀ word, ofNat (toNat word) = word)
    (toNat_ofNat : ∀ n, n < 256 ^ width → toNat (ofNat n) = n) :
    ReadsFrom source (ofNat <$> readNumber source width)
      (fun word part => part = bytes width (toNat word)) fun _ => False := by
  apply (reads_map ofNat (reads_readNumber width)).congr
  · intro word part
    constructor
    · rintro ⟨n, rfl, rfl, rfl⟩
      rw [toNat_ofNat _ (value_lt part), bytes_value]
    · rintro rfl
      refine ⟨toNat word, (ofNat_toNat word).symm, (value_bytes (toNat_lt word)).symm, ?_⟩
      exact length_bytes _ _
  · exact fun _ => Iff.rfl

theorem reads_readU32 : ReadsFrom source (readU32 source)
    (fun word part => part = bytes 4 word.toNat) fun _ => False :=
  reads_word 4 UInt32.ofNat UInt32.toNat UInt32.toNat_lt (fun _ => UInt32.ofNat_toNat)
    fun _ small => UInt32.toNat_ofNat_of_lt' small

theorem reads_readU64 : ReadsFrom source (readU64 source)
    (fun word part => part = bytes 8 word.toNat) fun _ => False :=
  reads_word 8 UInt64.ofNat UInt64.toNat UInt64.toNat_lt (fun _ => UInt64.ofNat_toNat)
    fun _ small => UInt64.toNat_ofNat_of_lt' small

/-- A reservation reads nothing, and is a fault when fewer bytes are left. -/
theorem reads_reserve (count : Nat) : ReadsFrom source (reserve source count)
    (fun _ part => part = []) fun rest => rest.length < count where
  sound pos _ out pos' read := by
    unfold reserve at read
    split_ifs at read
    cases read
    exact ⟨[], _, rfl, rfl, rfl⟩
  complete pos _ out part rest split isLaid := by
    subst isLaid
    unfold reserve
    split_ifs
    · exact Or.inl rfl
    · exact Or.inr ⟨_, rfl, rfl⟩
  faults pos _ := by
    unfold reserve
    rw [List.length_drop]
    split_ifs with enough
    · exact iff_of_false not_isFault_ok (not_lt.mpr enough)
    · exact iff_of_true ⟨_, rfl, rfl⟩ (not_le.mp enough)

theorem reads_fromUtf8 (list : List UInt8) : ReadsFrom source (fromUtf8 list)
    (fun text part => text.bytes = list ∧ part = []) fun _ => False := by
  unfold fromUtf8
  split_ifs with valid
  · apply (reads_pure _).congr
    · intro text part
      refine and_congr_left fun _ => ⟨fun same => same ▸ rfl, fun same => ?_⟩
      cases text
      cases same
      rfl
    · exact fun _ => Iff.rfl
  · apply (reads_throw (not_fault_error _)).congr
    · intro text part
      refine iff_of_false id fun both => valid ?_
      rw [← both.1]
      exact text.valid
    · exact fun _ => Iff.rfl

theorem reads_readString : ReadsFrom source (readString source) LaidString fun _ => False := by
  unfold readString
  apply (reads_quiet reads_readU64 fun len =>
    reads_quiet (reads_readExact len.toNat) fun list => reads_fromUtf8 list).congr
  · intro text part
    constructor
    · rintro ⟨len, _, back, rfl, rfl, list, front, _, rfl, ⟨rfl, length⟩, same, rfl⟩
      rw [List.append_nil]
      refine ⟨?_, by rw [same, length]⟩
      rw [same, length]
      exact len.toNat_lt
    · rintro ⟨small, rfl⟩
      have word := UInt64.toNat_ofNat_of_lt' small
      exact ⟨UInt64.ofNat text.bytes.length, _, text.bytes, rfl, congrArg (bytes 8) word.symm,
        text.bytes, text.bytes, [], (List.append_nil _).symm, ⟨rfl, word.symm⟩, rfl, rfl⟩
  · exact fun _ => Iff.rfl

theorem readValue_scalar {tag : UInt32} {width : Nat} {make : Nat → MetaValue}
    (listed : (tag, width, make) ∈ scalars) (frames : Nat) :
    readValue source (frames + 1) tag = readScalar source width make := by
  simp only [scalars, List.mem_cons, List.not_mem_nil, or_false, Prod.mk.injEq] at listed
  rcases listed with ⟨rfl, rfl, rfl⟩ | ⟨rfl, rfl, rfl⟩ | ⟨rfl, rfl, rfl⟩ | ⟨rfl, rfl, rfl⟩ |
    ⟨rfl, rfl, rfl⟩ | ⟨rfl, rfl, rfl⟩ | ⟨rfl, rfl, rfl⟩ | ⟨rfl, rfl, rfl⟩ | ⟨rfl, rfl, rfl⟩ |
    ⟨rfl, rfl, rfl⟩ | ⟨rfl, rfl, rfl⟩ <;> rfl

/-- Every type is one of a fixed width, that of strings, that of arrays, or unknown. -/
theorem tag_cases (tag : UInt32) : (∃ width make, (tag, width, make) ∈ scalars) ∨ tag = 8 ∨
    tag = 9 ∨ 13 ≤ tag.toNat := by
  rcases Nat.lt_or_ge tag.toNat 13 with small | large
  · have same : tag = UInt32.ofNat tag.toNat := UInt32.ofNat_toNat.symm
    generalize tag.toNat = number at small same
    subst same
    interval_cases number <;> simp [scalars]
  · exact Or.inr (Or.inr (Or.inr large))

theorem readValue_unknown {tag : UInt32} (unknown : 13 ≤ tag.toNat) (frames : Nat) :
    readValue source (frames + 1) tag = throw (.error .unknownMetaType) := by
  rw [readValue]
  split <;> first | omega | rfl

theorem scalars_unique {tag : UInt32} {width width' : Nat} {make make' : Nat → MetaValue}
    (listed : (tag, width, make) ∈ scalars) (listed' : (tag, width', make') ∈ scalars) :
    width' = width ∧ make' = make := by
  have distinct : (scalars.map Prod.fst).Nodup := by decide
  have same := List.inj_on_of_nodup_map distinct listed listed' rfl
  cases same
  exact ⟨rfl, rfl⟩

theorem notMem_scalars {tag : UInt32} (other : tag = 8 ∨ tag = 9 ∨ 13 ≤ tag.toNat) {width : Nat}
    {make : Nat → MetaValue} : (tag, width, make) ∉ scalars := by
  intro listed
  have bounded : tag ≠ 8 ∧ tag ≠ 9 ∧ tag.toNat < 13 := by
    simp only [scalars, List.mem_cons, List.not_mem_nil, or_false, Prod.mk.injEq] at listed
    rcases listed with ⟨rfl, -⟩ | ⟨rfl, -⟩ | ⟨rfl, -⟩ | ⟨rfl, -⟩ | ⟨rfl, -⟩ | ⟨rfl, -⟩ | ⟨rfl, -⟩ |
      ⟨rfl, -⟩ | ⟨rfl, -⟩ | ⟨rfl, -⟩ | ⟨rfl, -⟩ <;> exact ⟨by decide, by decide, by decide⟩
  obtain ⟨notString, notArray, small⟩ := bounded
  rcases other with isString | isArray | unknown
  · exact notString isString
  · exact notArray isArray
  · omega

theorem reads_scalar {tag : UInt32} {width : Nat} {make : Nat → MetaValue}
    (listed : (tag, width, make) ∈ scalars) (frames : Nat) :
    ReadsFrom source (readValue source (frames + 1) tag) (Laid tag)
      (FaultyValue (frames + 1) tag) := by
  rw [readValue_scalar listed]
  apply (reads_map make (reads_readNumber width)).congr
  · intro value part
    constructor
    · rintro ⟨_, rfl, rfl, length⟩
      exact .scalar listed part length
    · intro laid
      cases laid with
      | scalar listed' part length =>
          obtain ⟨rfl, rfl⟩ := scalars_unique listed listed'
          exact ⟨_, rfl, rfl, length⟩
      | str => exact absurd listed (notMem_scalars (Or.inl rfl))
      | arr => exact absurd listed (notMem_scalars (Or.inr (Or.inl rfl)))
  · intro rest
    refine iff_of_false id fun faulty => ?_
    cases faulty <;> exact notMem_scalars (Or.inr (Or.inl rfl)) listed

theorem laid_str_iff {value : MetaValue} {part : List UInt8} :
    Laid 8 value part ↔ ∃ text, value = .str text ∧ LaidString text part := by
  constructor
  · intro laid
    generalize isTag : (8 : UInt32) = tag at laid
    cases laid with
    | scalar listed => exact absurd listed (notMem_scalars (Or.inl isTag.symm))
    | str laid => exact ⟨_, rfl, laid⟩
    | arr => exact absurd isTag (by decide)
  · rintro ⟨text, rfl, laid⟩
    exact .str laid

theorem reads_str (frames : Nat) : ReadsFrom source (readValue source (frames + 1) 8) (Laid 8)
    (FaultyValue (frames + 1) 8) := by
  have shape : readValue source (frames + 1) 8 = MetaValue.str <$> readString source := rfl
  rw [shape]
  apply (reads_map MetaValue.str reads_readString).congr
  · exact fun value part => laid_str_iff.symm
  · intro rest
    refine iff_of_false id fun faulty => ?_
    generalize isTag : (8 : UInt32) = tag at faulty
    cases faulty <;> exact absurd isTag (by decide)

theorem reads_arr {frames : Nat} (reads : ∀ tag, ReadsFrom source (readValue source frames tag)
    (Laid tag) (FaultyValue frames tag)) :
    ReadsFrom source (readValue source (frames + 1) 9) (Laid 9) (FaultyValue (frames + 1) 9) := by
  have shape : readValue source (frames + 1) 9 = readU32 source >>= fun elem =>
      readU64 source >>= fun count => reserve source count.toNat >>= fun _ =>
        (fun values => MetaValue.arr elem values) <$> many (readValue source frames elem)
          count.toNat := by
    rw [readValue]
    simp only [bind_pure_comp]
    rfl
  rw [shape]
  apply (reads_behind reads_readU32 fun elem => reads_behind reads_readU64 fun count =>
    reads_bind (reads_reserve count.toNat) fun _ =>
      reads_map (fun values => MetaValue.arr elem values) (reads_many (reads elem) count.toNat)).congr
  · intro value part
    constructor
    · rintro ⟨elem, _, _, rfl, rfl, count, _, _, rfl, rfl, _, _, back, rfl, rfl, values, rfl, many,
        sequence⟩
      apply laid_arr_iff.mpr
      refine ⟨back, ?_, ?_, sequence⟩
      · rw [List.nil_append, many]
      · rw [many]
        exact count.toNat_lt
    · intro laid
      generalize isTag : (9 : UInt32) = tag at laid
      cases laid with
      | scalar listed =>
          exact absurd listed (notMem_scalars (Or.inr (Or.inl isTag.symm)))
      | str => exact absurd isTag (by decide)
      | arr elem pieces few areLaid =>
          have word := UInt64.toNat_ofNat_of_lt' few
          refine ⟨elem, _, _, rfl, rfl, UInt64.ofNat pieces.length, _, _, rfl,
            congrArg (bytes 8) word.symm, (), [], _, rfl, rfl, _, rfl, ?_, pieces, rfl, rfl, areLaid⟩
          rw [List.length_map, word]
  · intro rest
    constructor
    · rintro ⟨elem, _, _, rfl, rfl, count, _, back, rfl, rfl, more | ⟨_, _, back', same, rfl, values,
        front, last, rfl, fewer, sequence, faulty⟩⟩
      · exact .count count.toNat_lt more
      · rw [same, List.nil_append]
        exact .element count.toNat_lt fewer sequence faulty
    · intro faulty
      generalize isTag : (9 : UInt32) = tag at faulty
      cases faulty with
      | count fits more =>
          have word := UInt64.toNat_ofNat_of_lt' fits
          refine ⟨_, _, _, rfl, rfl, UInt64.ofNat _, _, _, rfl, congrArg (bytes 8) word.symm,
            Or.inl ?_⟩
          rw [word]
          exact more
      | element fits fewer sequence faulty =>
          have word := UInt64.toNat_ofNat_of_lt' fits
          refine ⟨_, _, _, rfl, rfl, UInt64.ofNat _, _, _, rfl, congrArg (bytes 8) word.symm,
            Or.inr ⟨(), [], _, rfl, rfl, _, _, _, rfl, ?_, sequence, faulty⟩⟩
          rw [word]
          exact fewer

/-- The reader of values: what it reads is laid out, and its faults are as described. -/
theorem reads_readValue (frames : Nat) (tag : UInt32) :
    ReadsFrom source (readValue source frames tag) (Laid tag) (FaultyValue frames tag) := by
  induction frames generalizing tag with
  | zero =>
      constructor
      · intro pos _ value pos' read
        cases read
      · intro pos _ value part rest _ _
        exact Or.inr ⟨_, rfl, rfl⟩
      · intro pos _
        exact iff_of_true ⟨_, rfl, rfl⟩ .deep
  | succ frames ih =>
      rcases tag_cases tag with ⟨width, make, listed⟩ | rfl | rfl | unknown
      · exact reads_scalar listed frames
      · exact reads_str frames
      · exact reads_arr ih
      · rw [readValue_unknown unknown]
        apply (reads_throw (not_fault_error _)).congr
        · intro value part
          refine iff_of_false id fun laid => ?_
          cases laid with
          | scalar listed => exact notMem_scalars (Or.inr (Or.inr unknown)) listed
          | str => exact absurd unknown (by decide)
          | arr => exact absurd unknown (by decide)
        · intro rest
          refine iff_of_false id fun faulty => ?_
          cases faulty <;> exact absurd unknown (by decide)

theorem reads_readMetadataKv (frames : Nat) : ReadsFrom source (readMetadataKv source frames) LaidKv
    (FaultyKv frames) := by
  have shape : readMetadataKv source frames = readString source >>= fun key =>
      readU32 source >>= fun tag => MetadataKv.mk key <$> readValue source frames tag := by
    unfold readMetadataKv
    simp only [bind_pure_comp]
  rw [shape]
  apply (reads_behind reads_readString fun key => reads_behind reads_readU32 fun tag =>
    reads_map (MetadataKv.mk key) (reads_readValue frames tag)).congr
  · intro kv part
    constructor
    · rintro ⟨key, front, _, rfl, isKey, tag, _, back, rfl, rfl, value, rfl, laid⟩
      exact ⟨tag, front, back, rfl, isKey, laid⟩
    · rintro ⟨tag, front, back, rfl, isKey, laid⟩
      exact ⟨kv.key, front, _, rfl, isKey, tag, _, back, rfl, rfl, kv.value, rfl, laid⟩
  · intro rest
    constructor
    · rintro ⟨key, front, _, rfl, isKey, tag, _, back, rfl, rfl, faulty⟩
      exact ⟨key, tag, front, back, rfl, isKey, faulty⟩
    · rintro ⟨key, tag, front, back, rfl, isKey, faulty⟩
      exact ⟨key, front, _, rfl, isKey, tag, _, back, rfl, rfl, faulty⟩

theorem sequence_words {words : List UInt64} {part : List UInt8} :
    Sequence (fun (word : UInt64) part => part = bytes 8 word.toNat) words part ↔
      part = wordBytes words := by
  induction words generalizing part with
  | nil => exact sequence_nil
  | cons word words ih =>
      rw [sequence_cons]
      constructor
      · rintro ⟨front, back, rfl, rfl, later⟩
        rw [ih.mp later]
        rfl
      · rintro rfl
        exact ⟨_, wordBytes words, rfl, rfl, ih.mpr rfl⟩

/-- The dimensions of a tensor: they are reserved before they are read. -/
theorem reads_dims (count : Nat) : ReadsFrom source
    (reserve source count >>= fun _ => many (readU64 source) count)
    (fun dims part => dims.length = count ∧ part = wordBytes dims) fun rest =>
      rest.length < count := by
  apply (reads_bind (reads_reserve count) fun _ => reads_many reads_readU64 count).congr
  · intro dims part
    constructor
    · rintro ⟨_, _, back, rfl, rfl, many, sequence⟩
      exact ⟨many, sequence_words.mp sequence⟩
    · rintro ⟨many, rfl⟩
      exact ⟨(), [], _, rfl, rfl, many, sequence_words.mpr rfl⟩
  · intro rest
    refine ⟨fun either => either.elim id ?_, Or.inl⟩
    rintro ⟨_, _, _, _, _, _, _, _, _, _, _, impossible⟩
    exact impossible.elim

theorem reads_readTensorInfo : ReadsFrom source (readTensorInfo source) LaidTensor FaultyTensor := by
  have shape : readTensorInfo source = readString source >>= fun name =>
      readU32 source >>= fun ndim =>
        (reserve source ndim.toNat >>= fun _ => many (readU64 source) ndim.toNat) >>= fun dims =>
          readU32 source >>= fun dtype =>
            (fun offset => TensorInfo.mk name dims dtype offset) <$> readU64 source := by
    unfold readTensorInfo
    simp only [bind_pure_comp, bind_assoc]
  rw [shape]
  apply (reads_behind reads_readString fun name => reads_behind reads_readU32 fun ndim =>
    reads_bind (reads_dims ndim.toNat) fun dims => reads_quiet reads_readU32 fun dtype =>
      reads_map (fun offset => TensorInfo.mk name dims dtype offset) reads_readU64).congr
  · intro info part
    constructor
    · rintro ⟨name, front, _, rfl, isName, ndim, _, _, rfl, rfl, dims, _, _, rfl, ⟨many, rfl⟩, dtype,
        _, _, rfl, rfl, offset, rfl, rfl⟩
      refine ⟨?_, front, isName, ?_⟩
      · show dims.length < 2 ^ 32
        rw [many]
        exact ndim.toNat_lt
      · rw [← many]
    · rintro ⟨few, front, isName, rfl⟩
      have word := UInt32.toNat_ofNat_of_lt' few
      exact ⟨info.name, front, _, rfl, isName, UInt32.ofNat info.dims.length, _, _, rfl,
        congrArg (bytes 4) word.symm, info.dims, _, _, rfl, ⟨word.symm, rfl⟩, info.dtype, _, _, rfl,
        rfl, info.offset, rfl, rfl⟩
  · intro rest
    constructor
    · rintro ⟨name, front, _, rfl, isName, ndim, _, back, rfl, rfl, more | impossible⟩
      · exact ⟨name, ndim.toNat, front, back, rfl, ndim.toNat_lt, isName, more⟩
      · obtain ⟨_, _, _, _, _, impossible⟩ := impossible
        exact impossible.elim
    · rintro ⟨name, count, front, back, rfl, fits, isName, more⟩
      have word := UInt32.toNat_ofNat_of_lt' fits
      refine ⟨name, front, _, rfl, isName, UInt32.ofNat count, _, back, rfl,
        congrArg (bytes 4) word.symm, Or.inl ?_⟩
      rw [word]
      exact more

theorem supported_iff {version : UInt32} : (2 ≤ version ∧ version ≤ 3) ↔ Supported version := by
  unfold Supported
  rw [UInt32.le_iff_toNat_le, UInt32.le_iff_toNat_le, ← UInt32.toNat_inj, ← UInt32.toNat_inj]
  show 2 ≤ version.toNat ∧ version.toNat ≤ 3 ↔ version.toNat = 2 ∨ version.toNat = 3
  omega

theorem reads_readVersion : ReadsFrom source (readVersion source)
    (fun version part => Supported version ∧
      part = bytes 4 ggufMagic.toNat ++ bytes 4 version.toNat) fun _ => False := by
  unfold readVersion
  apply (reads_behind reads_readU32 fun magic => reads_guard (not_fault_error _)
    (reads_behind reads_readU32 fun version =>
      reads_guard (not_fault_error _) (reads_pure version))).congr
  · intro version part
    constructor
    · rintro ⟨magic, _, _, rfl, rfl, rfl, other, _, _, rfl, rfl, supported, rfl, rfl⟩
      rw [List.append_nil]
      exact ⟨supported_iff.mp supported, rfl⟩
    · rintro ⟨supported, rfl⟩
      exact ⟨ggufMagic, _, _, rfl, rfl, rfl, version, _, [], (List.append_nil _).symm, rfl,
        supported_iff.mpr supported, rfl, rfl⟩
  · intro rest
    refine iff_of_false ?_ id
    rintro ⟨_, _, _, _, _, _, _, _, _, _, _, _, impossible⟩
    exact impossible

theorem reads_records {α : Type} {reader : Reader Stop α} {laid : α → List UInt8 → Prop}
    {faulty : List UInt8 → Prop} (reads : ReadsFrom source reader laid faulty) (count : Nat) :
    ReadsFrom source (reserve source count >>= fun _ => many reader count)
      (fun records part => records.length = count ∧ Sequence laid records part) fun rest =>
        rest.length < count ∨ FaultyWithin laid faulty count rest := by
  apply (reads_bind (reads_reserve count) fun _ => reads_many reads count).congr
  · intro records part
    constructor
    · rintro ⟨_, _, back, rfl, rfl, isLaid⟩
      exact isLaid
    · intro isLaid
      exact ⟨(), [], part, rfl, rfl, isLaid⟩
  · intro rest
    apply or_congr_right
    constructor
    · rintro ⟨_, _, back, rfl, rfl, isFaulty⟩
      exact isFaulty
    · intro isFaulty
      exact ⟨(), [], rest, rfl, rfl, isFaulty⟩

theorem reads_readRecords (frames : Nat) : ReadsFrom source (readRecords source frames)
    (fun records part => LaidRecords records.1 records.2.1 records.2.2 part)
    (FaultyRecords frames) := by
  have shape : readRecords source frames = readVersion source >>= fun version =>
      readU64 source >>= fun nTensors => readU64 source >>= fun nMeta =>
        (reserve source nMeta.toNat >>= fun _ =>
            many (readMetadataKv source frames) nMeta.toNat) >>= fun metadata =>
          (fun tensors => (version, metadata, tensors)) <$>
            (reserve source nTensors.toNat >>= fun _ =>
              many (readTensorInfo source) nTensors.toNat) := by
    unfold readRecords
    simp only [bind_pure_comp, bind_assoc, map_bind]
  rw [shape]
  apply (reads_behind reads_readVersion fun version => reads_behind reads_readU64 fun nTensors =>
    reads_behind reads_readU64 fun nMeta =>
      reads_bind (reads_records (reads_readMetadataKv frames) nMeta.toNat) fun metadata =>
        reads_map (fun tensors => (version, metadata, tensors))
          (reads_records reads_readTensorInfo nTensors.toNat)).congr
  · intro records part
    constructor
    · rintro ⟨version, _, _, rfl, ⟨supported, rfl⟩, nTensors, _, _, rfl, rfl, nMeta, _, _, rfl, rfl,
        metadata, front, back, rfl, ⟨manyMeta, isMeta⟩, tensors, rfl, manyTensors, isTensors⟩
      refine ⟨supported, ?_, ?_, front, back, ?_, isMeta, isTensors⟩
      · show metadata.length < 2 ^ 64
        rw [manyMeta]
        exact nMeta.toNat_lt
      · show tensors.length < 2 ^ 64
        rw [manyTensors]
        exact nTensors.toNat_lt
      · show _ = headerBytes version tensors.length metadata.length ++ (front ++ back)
        rw [manyTensors, manyMeta]
        simp only [headerBytes, List.append_assoc]
    · obtain ⟨version, metadata, tensors⟩ := records
      rintro ⟨supported, fewMeta, fewTensors, front, back, rfl, isMeta, isTensors⟩
      have wordMeta := UInt64.toNat_ofNat_of_lt' fewMeta
      have wordTensors := UInt64.toNat_ofNat_of_lt' fewTensors
      refine ⟨version, _, _, ?_, ⟨supported, rfl⟩, UInt64.ofNat tensors.length, _, _, rfl,
        congrArg (bytes 8) wordTensors.symm, UInt64.ofNat metadata.length, _, _, rfl,
        congrArg (bytes 8) wordMeta.symm, metadata, front, back, rfl, ⟨wordMeta.symm, isMeta⟩,
        tensors, rfl, wordTensors.symm, isTensors⟩
      simp only [headerBytes, List.append_assoc]
  · intro rest
    constructor
    · rintro ⟨version, _, _, rfl, ⟨supported, rfl⟩, nTensors, _, _, rfl, rfl, nMeta, _, last, rfl, rfl,
        isFaulty⟩
      refine ⟨version, nTensors.toNat, nMeta.toNat, last, supported, nTensors.toNat_lt,
        nMeta.toNat_lt, ?_, ?_⟩
      · simp only [headerBytes, List.append_assoc]
      · rcases isFaulty with (more | within) | ⟨metadata, front, back, rfl, ⟨many, isMeta⟩, isFaulty⟩
        · exact Or.inl more
        · exact Or.inr (Or.inl within)
        · exact Or.inr (Or.inr ⟨metadata, front, back, rfl, many, isMeta, isFaulty⟩)
    · rintro ⟨version, nTensors, nMeta, last, supported, fewTensors, fewMeta, rfl, isFaulty⟩
      have wordMeta := UInt64.toNat_ofNat_of_lt' fewMeta
      have wordTensors := UInt64.toNat_ofNat_of_lt' fewTensors
      refine ⟨version, _, _, ?_, ⟨supported, rfl⟩, UInt64.ofNat nTensors, _, _, rfl,
        congrArg (bytes 8) wordTensors.symm, UInt64.ofNat nMeta, _, last, rfl,
        congrArg (bytes 8) wordMeta.symm, ?_⟩
      · simp only [headerBytes, List.append_assoc]
      · rw [wordMeta, wordTensors]
        rcases isFaulty with more | within | ⟨metadata, front, back, rfl, many, isMeta, isFaulty⟩
        · exact Or.inl (Or.inl more)
        · exact Or.inl (Or.inr within)
        · exact Or.inr ⟨metadata, front, back, rfl, ⟨many, isMeta⟩, isFaulty⟩

end Rayzor.Gguf
