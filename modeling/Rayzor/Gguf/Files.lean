import Rayzor.Gguf.Readers

/-!
Contract: what the GGUF parser promises of a byte source.
-/

namespace Rayzor.Gguf

open Library.LittleEndian (bytes)
open Library.Reader

/-- The types of tensors, with the number of elements in a block and the bytes of a block. -/
def blockTypes : List (UInt32 × Nat × Nat) :=
  [(0, 1, 4), (1, 1, 2), (8, 32, 34), (12, 256, 144), (14, 256, 210)]

def TensorInfo.elements (info : TensorInfo) : Nat := (info.dims.map UInt64.toNat).prod

def TensorSize (info : TensorInfo) (size : Nat) : Prop :=
  ∃ block blockBytes, (info.dtype, block, blockBytes) ∈ blockTypes ∧
    size = (info.elements + (block - 1)) / block * blockBytes

def IsTensorRange (file : GgufFile) (source : ByteSource) (idx : Nat) (part : List UInt8) : Prop :=
  ∃ info size, file.tensors[idx]? = some info ∧ TensorSize info size ∧
    file.dataStart + info.offset.toNat + size ≤ source.bytes.length ∧
    part = (source.bytes.drop (file.dataStart + info.offset.toNat)).take size

/-- What the parser promises of a byte source, when a number of calls fit on the stack. -/
structure Promised (frames : Nat) (source : ByteSource) : Prop where
  total : ∀ stop, parse frames source = .error stop → ¬fault stop
  inverts : ∀ file, LaidFile file source.bytes → parse frames source = .ok file
  ranges : ∀ file, parse frames source = .ok file → ∀ idx part,
    file.tensorBytes source idx = .ok part → IsTensorRange file source idx part

/-- A file has a tensor of type 8 whose last block is not whole, and the bytes that are counted
for it lie inside the source. -/
def PartialBlock (source : ByteSource) : Prop :=
  ∃ (file : GgufFile) (idx : Nat) (info : TensorInfo), LaidFile file source.bytes ∧
    file.tensors[idx]? = some info ∧ info.dtype = 8 ∧ ¬32 ∣ info.elements ∧ file.dataStart + info.offset.toNat +
      (info.elements + info.elements / 32 * 2) ≤ source.bytes.length

theorem alignment_lt {value : MetaValue} {alignment : Nat}
    (declared : value.alignment = some alignment) : alignment < 2 ^ 64 := by
  unfold MetaValue.alignment at declared
  split at declared
  · cases declared
    exact (UInt32.toNat_lt _).trans (by decide)
  · split_ifs at declared
    cases declared
    have small := Int32.toInt_lt ‹Int32›
    omega
  · cases declared
    exact UInt64.toNat_lt _
  · split_ifs at declared
    cases declared
    have small := Int64.toInt_lt ‹Int64›
    omega
  · cases declared

theorem alignmentOf_lt (metadata : List MetadataKv) : alignmentOf metadata < 2 ^ 64 := by
  unfold alignmentOf
  cases declared : (metadata.find? fun kv => kv.key.bytes = alignmentKey).bind
      fun kv => kv.value.alignment with
  | none => decide
  | some alignment =>
      obtain ⟨kv, -, isAlignment⟩ := Option.bind_eq_some_iff.mp declared
      exact alignment_lt isAlignment

theorem FirstAligned.unique {alignment offset start start' : Nat}
    (first : FirstAligned alignment offset start) (first' : FirstAligned alignment offset start') :
    start = start' :=
  Nat.le_antisymm (first.2.2 start' first'.1 first'.2.1) (first'.2.2 start first.1 first.2.1)

theorem FirstAligned.positive {alignment offset start : Nat}
    (first : FirstAligned alignment offset start) (some : 0 < offset) : alignment ≠ 0 := by
  rintro rfl
  have none := Nat.zero_dvd.mp first.1
  have behind := first.2.1
  omega

/-- Rounding a position up to the alignment. -/
theorem firstAligned_up {alignment pos : Nat} (some : alignment ≠ 0)
    (apart : pos % alignment ≠ 0) :
    FirstAligned alignment pos (pos + (alignment - pos % alignment)) := by
  have below := Nat.mod_lt pos (Nat.pos_of_ne_zero some)
  have split := Nat.div_add_mod pos alignment
  have next : pos + (alignment - pos % alignment) = alignment * (pos / alignment + 1) := by
    rw [Nat.mul_add, Nat.mul_one]
    omega
  refine ⟨next ▸ Nat.dvd_mul_right _ _, Nat.le_add_right _ _, ?_⟩
  rintro _ ⟨factor, rfl⟩ behind
  rw [next]
  apply Nat.mul_le_mul_left
  by_contra less
  have few : factor ≤ pos / alignment := by omega
  have short := Nat.mul_le_mul_left alignment few
  omega

/-- With an alignment other than zero the data starts at the first aligned position; no position
in a source overflows. -/
theorem dataStartOf_spec {alignment pos : Nat} (some : alignment ≠ 0) (fits : alignment < 2 ^ 64)
    (inside : pos < 2 ^ 63) :
    ∃ start, dataStartOf alignment pos = .ok start ∧ FirstAligned alignment pos start := by
  unfold dataStartOf
  rw [if_neg some]
  by_cases aligned : pos % alignment = 0
  · rw [if_pos aligned]
    exact ⟨pos, rfl, Nat.dvd_of_mod_eq_zero aligned, le_rfl, fun _ _ behind => behind⟩
  · have below : pos + (alignment - pos % alignment) < 2 ^ 64 := by
      rcases Nat.lt_or_ge pos alignment with less | more
      · rw [Nat.mod_eq_of_lt less]
        omega
      · omega
    rw [if_neg aligned, if_pos below]
    exact ⟨_, rfl, firstAligned_up some aligned⟩

section Runs

variable {frames : Nat} {source : ByteSource} {file : GgufFile}

theorem parse_of_error {stop : Stop} (stopped : readRecords source frames 0 = .error stop) :
    parse frames source = .error stop := by
  unfold parse
  rw [stopped]
  rfl

theorem parse_of_ok {records : UInt32 × List MetadataKv × List TensorInfo} {pos : Nat}
    (read : readRecords source frames 0 = .ok (records, pos)) :
    parse frames source = (dataStartOf (alignmentOf records.2.1) pos).bind fun dataStart =>
      if dataStart ≤ source.bytes.length then
        .ok ⟨records.1, records.2.1, records.2.2, alignmentOf records.2.1, dataStart⟩
      else .error (.error .outOfBounds) := by
  unfold parse
  rw [read]
  rfl

theorem records_sound {records : UInt32 × List MetadataKv × List TensorInfo} {pos : Nat}
    (read : readRecords source frames 0 = .ok (records, pos)) :
    ∃ part rest, source.bytes = part ++ rest ∧ pos = part.length ∧
      LaidRecords records.1 records.2.1 records.2.2 part := by
  obtain ⟨part, rest, split, position, isLaid⟩ :=
    (reads_readRecords frames).sound 0 (Nat.zero_le _) records pos read
  rw [List.drop_zero] at split
  exact ⟨part, rest, split, by rw [position, Nat.zero_add], isLaid⟩

theorem records_complete {version : UInt32} {metadata : List MetadataKv}
    {tensors : List TensorInfo} {part rest : List UInt8} (split : source.bytes = part ++ rest)
    (isLaid : LaidRecords version metadata tensors part) :
    readRecords source frames 0 = .ok ((version, metadata, tensors), part.length) ∨
      IsFault fault (readRecords source frames 0) := by
  have reads : ReadsFrom source (readRecords source frames) _ _ := reads_readRecords frames
  have complete := reads.complete 0 (Nat.zero_le _) (version, metadata, tensors) part rest split
    isLaid
  rwa [Nat.zero_add] at complete

theorem LaidRecords.length_pos {version : UInt32} {metadata : List MetadataKv}
    {tensors : List TensorInfo} {part : List UInt8}
    (isLaid : LaidRecords version metadata tensors part) : 0 < part.length := by
  obtain ⟨-, -, -, front, back, rfl, -⟩ := isLaid
  simp [headerBytes]

theorem laidFile_of_parse (parsed : parse frames source = .ok file) :
    LaidFile file source.bytes := by
  cases read : readRecords source frames 0 with
  | error stop =>
      rw [parse_of_error read] at parsed
      cases parsed
  | ok result =>
      obtain ⟨records, pos⟩ := result
      obtain ⟨part, rest, split, rfl, isLaid⟩ := records_sound read
      rw [parse_of_ok read] at parsed
      by_cases zero : alignmentOf records.2.1 = 0
      · rw [zero] at parsed
        cases parsed
      · have short : part.length ≤ source.bytes.length := by
          rw [split, List.length_append]
          exact Nat.le_add_right _ _
        obtain ⟨start, starts, first⟩ := dataStartOf_spec zero (alignmentOf_lt _)
          (short.trans_lt source.bounded)
        rw [starts] at parsed
        change (if start ≤ source.bytes.length then _ else _) = _ at parsed
        split_ifs at parsed with inside
        cases parsed
        exact ⟨part, rest, split, isLaid, rfl, first, inside⟩

theorem parse_of_laidFile (isFile : LaidFile file source.bytes) :
    parse frames source = .ok file ∨ IsFault fault (parse frames source) := by
  obtain ⟨part, rest, split, isLaid, isAlignment, first, inside⟩ := isFile
  have complete : _ ∨ IsFault fault (readRecords source frames 0) :=
    records_complete split isLaid
  rcases complete with read | ⟨stop, stopped, isFault⟩
  · left
    have short : part.length ≤ source.bytes.length := by
      rw [split, List.length_append]
      exact Nat.le_add_right _ _
    rw [isAlignment] at first
    obtain ⟨start, starts, first'⟩ := dataStartOf_spec (first.positive isLaid.length_pos)
      (alignmentOf_lt _) (short.trans_lt source.bounded)
    have same := first.unique first'
    subst same
    rw [parse_of_ok read]
    show (dataStartOf (alignmentOf file.metadata) part.length).bind _ = _
    rw [starts]
    show (if file.dataStart ≤ source.bytes.length then _ else _) = _
    rw [if_pos inside, ← isAlignment]
  · exact Or.inr ⟨stop, parse_of_error stopped, isFault⟩

theorem isFault_parse_iff : IsFault fault (parse frames source) ↔
    FaultyRecords frames source.bytes ∨ ZeroAligned source.bytes := by
  have reads : ReadsFrom source (readRecords source frames) _ _ := reads_readRecords frames
  have faults := reads.faults 0 (Nat.zero_le _)
  rw [List.drop_zero] at faults
  constructor
  · rintro ⟨stop, stopped, isFault⟩
    cases read : readRecords source frames 0 with
    | error stop' =>
        rw [parse_of_error read] at stopped
        cases stopped
        exact Or.inl (faults.mp ⟨_, read, isFault⟩)
    | ok result =>
        obtain ⟨records, pos⟩ := result
        obtain ⟨part, rest, split, rfl, isLaid⟩ := records_sound read
        by_cases zero : alignmentOf records.2.1 = 0
        · exact Or.inr ⟨_, _, _, part, rest, split, isLaid, zero⟩
        · have short : part.length ≤ source.bytes.length := by
            rw [split, List.length_append]
            exact Nat.le_add_right _ _
          obtain ⟨start, starts, -⟩ := dataStartOf_spec zero (alignmentOf_lt _)
            (short.trans_lt source.bounded)
          rw [parse_of_ok read, starts] at stopped
          change (if start ≤ source.bytes.length then _ else _) = _ at stopped
          split_ifs at stopped
          cases stopped
          cases isFault
  · rintro (isFaulty | ⟨version, metadata, tensors, part, rest, split, isLaid, zero⟩)
    · obtain ⟨stop, stopped, isFault⟩ := faults.mpr isFaulty
      exact ⟨stop, parse_of_error stopped, isFault⟩
    · have complete : _ ∨ IsFault fault (readRecords source frames 0) :=
        records_complete split isLaid
      rcases complete with read | ⟨stop, stopped, isFault⟩
      · refine ⟨.dividedByZero, ?_, rfl⟩
        rw [parse_of_ok read]
        show (dataStartOf (alignmentOf metadata) part.length).bind _ = _
        rw [zero]
        rfl
      · exact ⟨stop, parse_of_error stopped, isFault⟩

end Runs

theorem checked_eq_ok {n m : Nat} : checked n = .ok m ↔ n < 2 ^ 64 ∧ n = m := by
  unfold checked
  by_cases fits : n < 2 ^ 64
  · rw [if_pos fits]
    exact ⟨fun isOk => ⟨fits, Except.ok.inj isOk⟩, fun both => congrArg _ both.2⟩
  · rw [if_neg fits]
    exact ⟨fun isOk => (nomatch isOk), fun both => absurd both.1 fits⟩

theorem count_sound : ∀ (dims : List UInt64) (n m : Nat),
    dims.foldlM (fun n d => checked (n * d.toNat)) n = .ok m →
      m = n * (dims.map UInt64.toNat).prod := by
  intro dims
  induction dims with
  | nil =>
      intro n m counted
      cases counted
      rw [List.map_nil, List.prod_nil, Nat.mul_one]
  | cons d dims ih =>
      intro n m counted
      rw [List.foldlM_cons] at counted
      cases product : checked (n * d.toNat) with
      | error error =>
          rw [product] at counted
          cases counted
      | ok next =>
          rw [product] at counted
          have isNext := (checked_eq_ok.mp product).2
          rw [ih next m counted, ← isNext, List.map_cons, List.prod_cons, Nat.mul_assoc]

/-- A product that fits is counted, unless it is zero: a dimension of zero may stand behind others
that overflow. -/
theorem count_complete : ∀ (dims : List UInt64) (n : Nat),
    n * (dims.map UInt64.toNat).prod ≠ 0 → n * (dims.map UInt64.toNat).prod < 2 ^ 64 →
      dims.foldlM (fun n d => checked (n * d.toNat)) n =
        .ok (n * (dims.map UInt64.toNat).prod) := by
  intro dims
  induction dims with
  | nil =>
      intro n some fits
      rw [List.map_nil, List.prod_nil, Nat.mul_one]
      rfl
  | cons d dims ih =>
      intro n some fits
      rw [List.map_cons, List.prod_cons, ← Nat.mul_assoc] at some fits ⊢
      have factor : 0 < (dims.map UInt64.toNat).prod :=
        Nat.pos_of_ne_zero (Nat.mul_ne_zero_iff.mp some).2
      have small : n * d.toNat < 2 ^ 64 := (Nat.le_mul_of_pos_right _ factor).trans_lt fits
      rw [List.foldlM_cons, checked_eq_ok.mpr ⟨small, rfl⟩]
      exact ih _ some fits

theorem elementCount_sound {info : TensorInfo} {n : Nat} (counted : elementCount info = .ok n) :
    n = info.elements := by
  have isProduct := count_sound info.dims 1 n counted
  rwa [Nat.one_mul] at isProduct

theorem elementCount_complete {info : TensorInfo} (some : info.elements ≠ 0)
    (fits : info.elements < 2 ^ 64) : elementCount info = .ok info.elements := by
  have counted := count_complete info.dims 1
  rw [Nat.one_mul] at counted
  exact counted some fits

theorem divCeil_eq {n d : Nat} (some : 0 < d) : divCeil n d = (n + (d - 1)) / d := by
  unfold divCeil
  split_ifs with zero
  · rw [zero, Nat.zero_add, Nat.div_eq_of_lt (Nat.sub_lt some Nat.one_pos)]
  · have split : n + (d - 1) = n - 1 + d := by omega
    rw [split, Nat.add_div_right _ some]

/-- The size of a tensor is counted as its blocks, unless it has blocks of 32 and the last one is
not whole. -/
theorem tensorByteSize_sound {info : TensorInfo} {size : Nat}
    (counted : tensorByteSize info = .ok size) :
    TensorSize info size ∨ info.dtype = 8 ∧ ¬32 ∣ info.elements ∧
      size = info.elements + info.elements / 32 * 2 := by
  unfold tensorByteSize at counted
  cases isCount : elementCount info with
  | error error =>
      rw [isCount] at counted
      cases counted
  | ok n =>
      rw [isCount] at counted
      have isElements := elementCount_sound isCount
      subst isElements
      have listed : ∀ (dtype : UInt32) (block blockBytes : Nat), info.dtype.toNat = dtype.toNat →
          (dtype, block, blockBytes) ∈ blockTypes →
            size = (info.elements + (block - 1)) / block * blockBytes → TensorSize info size :=
        fun _ block blockBytes is inList isSize =>
          ⟨block, blockBytes, UInt32.toNat_inj.mp is ▸ inList, isSize⟩
      simp only [bind, Except.bind] at counted
      split at counted
      next is =>
        apply Or.inl
        apply listed 0 1 4 is (by simp [blockTypes])
        rw [← (checked_eq_ok.mp counted).2, Nat.div_one, Nat.add_zero]
      next is =>
        apply Or.inl
        apply listed 1 1 2 is (by simp [blockTypes])
        rw [← (checked_eq_ok.mp counted).2, Nat.div_one, Nat.add_zero]
      next is =>
        cases scaled : checked (info.elements / 32 * 2) with
        | error error =>
            rw [scaled] at counted
            cases counted
        | ok scales =>
            rw [scaled] at counted
            have isScales := (checked_eq_ok.mp scaled).2
            have isSize := (checked_eq_ok.mp counted).2
            by_cases whole : 32 ∣ info.elements
            · left
              apply listed 8 32 34 is (by simp [blockTypes])
              omega
            · right
              refine ⟨UInt32.toNat_inj.mp is, whole, ?_⟩
              omega
      next is =>
        apply Or.inl
        apply listed 12 256 144 is (by simp [blockTypes])
        rw [← (checked_eq_ok.mp counted).2, divCeil_eq (by decide)]
      next is =>
        apply Or.inl
        apply listed 14 256 210 is (by simp [blockTypes])
        rw [← (checked_eq_ok.mp counted).2, divCeil_eq (by decide)]
      next => cases counted

theorem TensorSize.of_partial {info : TensorInfo} {size : Nat} (isSize : TensorSize info size)
    (isType : info.dtype = 8) : size = (info.elements + 31) / 32 * 34 := by
  obtain ⟨block, blockBytes, listed, rfl⟩ := isSize
  rw [isType] at listed
  simp only [blockTypes, List.mem_cons, Prod.mk.injEq, List.not_mem_nil, or_false] at listed
  rcases listed with ⟨is, -⟩ | ⟨is, -⟩ | ⟨-, rfl, rfl⟩ | ⟨is, -⟩ | ⟨is, -⟩
  · exact absurd is (by decide)
  · exact absurd is (by decide)
  · rfl
  · exact absurd is (by decide)
  · exact absurd is (by decide)

theorem tensorByteSize_of_partial {info : TensorInfo} (isType : info.dtype = 8)
    (some : info.elements ≠ 0)
    (fits : info.elements + info.elements / 32 * 2 < 2 ^ 64) :
    tensorByteSize info = .ok (info.elements + info.elements / 32 * 2) := by
  unfold tensorByteSize
  rw [elementCount_complete some (by omega), isType]
  show (checked (info.elements / 32 * 2)).bind _ = _
  rw [checked_eq_ok.mpr ⟨by omega, rfl⟩]
  exact checked_eq_ok.mpr ⟨fits, rfl⟩

section Tensors

variable {source : ByteSource} {file : GgufFile} {idx : Nat} {info : TensorInfo}

theorem readAt_eq_ok {offset len : Nat} {part : List UInt8} :
    source.readAt offset len = .ok part ↔
      offset + len ≤ source.bytes.length ∧ part = (source.bytes.drop offset).take len := by
  have bounded := source.bounded
  unfold ByteSource.readAt
  constructor
  · intro isOk
    split_ifs at isOk with inside
    exact ⟨inside.2, (Except.ok.inj isOk).symm⟩
  · rintro ⟨inside, rfl⟩
    rw [if_pos ⟨by omega, inside⟩]

theorem tensorBytes_of_info (isInfo : file.tensors[idx]? = some info) :
    file.tensorBytes source idx = (tensorByteSize info).bind fun len =>
      (checked (file.dataStart + info.offset.toNat)).bind fun start => source.readAt start len := by
  unfold GgufFile.tensorBytes
  rw [isInfo]
  rfl

theorem tensorBytes_sound {part : List UInt8} (isOk : file.tensorBytes source idx = .ok part) :
    ∃ info size, file.tensors[idx]? = some info ∧ tensorByteSize info = .ok size ∧
      file.dataStart + info.offset.toNat + size ≤ source.bytes.length ∧
      part = (source.bytes.drop (file.dataStart + info.offset.toNat)).take size := by
  cases isInfo : file.tensors[idx]? with
  | none =>
      unfold GgufFile.tensorBytes at isOk
      rw [isInfo] at isOk
      cases isOk
  | some info =>
      rw [tensorBytes_of_info isInfo] at isOk
      cases counted : tensorByteSize info with
      | error error =>
          rw [counted] at isOk
          cases isOk
      | ok size =>
          rw [counted] at isOk
          cases starts : checked (file.dataStart + info.offset.toNat) with
          | error error =>
              simp only [Except.bind, starts] at isOk
              cases isOk
          | ok start =>
              simp only [Except.bind, starts] at isOk
              rw [← (checked_eq_ok.mp starts).2] at isOk
              exact ⟨info, size, rfl, counted, readAt_eq_ok.mp isOk⟩

theorem not_isTensorRange_of_partial (isInfo : file.tensors[idx]? = some info)
    (isType : info.dtype = 8) (notWhole : ¬32 ∣ info.elements)
    (inside : file.dataStart + info.offset.toNat +
      (info.elements + info.elements / 32 * 2) ≤ source.bytes.length) :
    ∃ part, file.tensorBytes source idx = .ok part ∧ ¬IsTensorRange file source idx part := by
  have bounded := source.bounded
  have some : info.elements ≠ 0 := fun zero => notWhole (zero ▸ Nat.dvd_zero 32)
  refine ⟨(source.bytes.drop (file.dataStart + info.offset.toNat)).take
    (info.elements + info.elements / 32 * 2), ?_, ?_⟩
  · rw [tensorBytes_of_info isInfo, tensorByteSize_of_partial isType some (by omega)]
    show (checked (file.dataStart + info.offset.toNat)).bind _ = _
    rw [checked_eq_ok.mpr ⟨by omega, rfl⟩]
    exact readAt_eq_ok.mpr ⟨inside, rfl⟩
  · rintro ⟨info', size, isInfo', isSize, inside', isPart⟩
    cases isInfo.symm.trans isInfo'
    have lengths := congrArg List.length isPart
    rw [List.length_take_of_le (by rw [List.length_drop]; omega),
      List.length_take_of_le (by rw [List.length_drop]; omega)] at lengths
    have rounded := isSize.of_partial isType
    omega

end Tensors

/-- The promises are kept exactly when the records are not faulty, the declared alignment is not
zero, and no tensor of type 8 inside the source has a last block that is not whole. -/
theorem promised_iff (frames : Nat) (source : ByteSource) : Promised frames source ↔
    ¬FaultyRecords frames source.bytes ∧ ¬ZeroAligned source.bytes ∧ ¬PartialBlock source := by
  constructor
  · intro promised
    have noFault : ¬(FaultyRecords frames source.bytes ∨ ZeroAligned source.bytes) := by
      rw [← isFault_parse_iff]
      rintro ⟨stop, stopped, isFault⟩
      exact promised.total stop stopped isFault
    refine ⟨fun isFaulty => noFault (.inl isFaulty), fun zero => noFault (.inr zero), ?_⟩
    rintro ⟨file, idx, info, isFile, isInfo, isType, notWhole, inside⟩
    obtain ⟨part, isOk, notRange⟩ :=
      not_isTensorRange_of_partial isInfo isType notWhole inside
    exact notRange (promised.ranges file (promised.inverts file isFile) idx part isOk)
  · rintro ⟨notFaulty, notZero, notPartial⟩
    have noFault : ¬IsFault fault (parse frames source) :=
      fun isFault => (isFault_parse_iff.mp isFault).elim notFaulty notZero
    refine ⟨fun stop stopped isFault => noFault ⟨stop, stopped, isFault⟩, ?_, ?_⟩
    · intro file isFile
      exact (parse_of_laidFile isFile).resolve_right noFault
    · intro file parsed idx part isOk
      obtain ⟨info, size, isInfo, counted, inside, isPart⟩ := tensorBytes_sound isOk
      rcases tensorByteSize_sound counted with isSize | ⟨isType, notWhole, rfl⟩
      · exact ⟨info, size, isInfo, isSize, inside, isPart⟩
      · exact absurd ⟨file, idx, info, laidFile_of_parse parsed, isInfo, isType, notWhole, inside⟩
          notPartial

/-- A header that promises more metadata than there are bytes. -/
def hugeHeader : ByteSource where
  bytes := headerBytes 3 0 (2 ^ 64 - 1)
  bounded := by decide

theorem hugeHeader_reserves : ¬∃ frames, Promised frames hugeHeader := by
  rintro ⟨frames, promised⟩
  have isFaulty : FaultyRecords frames hugeHeader.bytes :=
    ⟨3, 0, 2 ^ 64 - 1, [], .inr rfl, by decide, by decide, (List.append_nil _).symm,
      .inl (by decide)⟩
  obtain ⟨stop, stopped, isFault⟩ := isFault_parse_iff.mpr (.inl isFaulty)
  exact promised.total stop stopped isFault

end Rayzor.Gguf
