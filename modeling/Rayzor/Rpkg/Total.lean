import Rayzor.Rpkg.RoundTrip

/-!
Contract: on which bytes the readers of package archives end without a panic, and what the archives
of a faithful codec do.
-/

namespace Rayzor.Rpkg

open List (Forall₂)

variable {ε : Type} {codec : Codec ε} {data : List UInt8}

/-- The function returns a value or an error. -/
def Ends {α : Type} (outcome : Except (Stop ε) α) : Prop :=
  ∀ stop, outcome = .error stop → stop.isPanic = false

theorem ends_ok {α : Type} {value : α} : Ends (.ok value : Except (Stop ε) α) := fun _ absurd => by cases absurd

theorem ends_error {α : Type} {error : RpkgError ε} :
    Ends (.error (.error error) : Except (Stop ε) α) := by
  intro stop same
  cases same
  rfl

theorem ends_map {α β : Type} {outcome : Except (Stop ε) α} {image : α → β} :
    Ends (outcome.map image) ↔ Ends outcome := by
  cases outcome with
  | ok value => exact iff_of_true ends_ok ends_ok
  | error stop => simp [Ends, Except.map]

/-- Reading the footer and the table never panics. -/
theorem readToc_ends (codec : Codec ε) (data : List UInt8) : Ends (readToc codec data) := by
  intro stop stopped
  unfold readToc at stopped
  simp only at stopped
  split at stopped
  · cases stopped
    rfl
  · split at stopped
    · cases stopped
      rfl
    · split at stopped
      · cases stopped
        rfl
      · split at stopped
        · cases stopped
          rfl
        · cases decoded : codec.decodeToc ((data.drop (data.length - footerSize -
              Library.LittleEndian.value ((data.drop (data.length - footerSize)).take 4))).take
              (Library.LittleEndian.value ((data.drop (data.length - footerSize)).take 4))) with
          | ok toc =>
              rw [decoded] at stopped
              cases stopped
          | error error =>
              rw [decoded] at stopped
              cases stopped
              rfl

/-- An entry that loading refuses: it ends behind the file, or is a method table that cannot be
decoded. -/
def Refused (codec : Codec ε) (data : List UInt8) (entry : RpkgEntry) : Prop :=
  data.length < entry.stop ∨
    entry.kind = .methodTable ∧ (∃ pluginName, entry.info = .methodTable pluginName) ∧
      ∀ methods, codec.decodeMethods (entry.slice data) ≠ .ok methods

/-- Before an entry whose end does not fit in a word, loading refuses another. -/
def LoadBounded (codec : Codec ε) (data : List UInt8) (entries : List RpkgEntry) : Prop :=
  ∀ before entry after, entries = before ++ entry :: after → 2 ^ 64 ≤ entry.stop →
    ∃ earlier ∈ before, Refused codec data earlier

theorem absorb_ends {platform : Platform} {loaded : LoadedRpkg} {kind : EntryKind}
    {info : EntryMeta} {bytes : List UInt8} :
    Ends (loaded.absorb codec platform kind info bytes) := by
  unfold LoadedRpkg.absorb
  split <;> try exact ends_ok
  split
  · exact ends_ok
  · exact ends_error

/-- Data is taken in unless it is a method table that cannot be decoded. -/
theorem absorb_isOk_iff {platform : Platform} {loaded : LoadedRpkg} {kind : EntryKind}
    {info : EntryMeta} {bytes : List UInt8} :
    (∃ next, loaded.absorb codec platform kind info bytes = .ok next) ↔
      ¬(kind = .methodTable ∧ (∃ pluginName, info = .methodTable pluginName) ∧
        ∀ methods, codec.decodeMethods bytes ≠ .ok methods) := by
  by_cases isTable : kind = .methodTable ∧ ∃ pluginName, info = .methodTable pluginName
  · obtain ⟨rfl, pluginName, rfl⟩ := isTable
    unfold LoadedRpkg.absorb
    cases decoded : codec.decodeMethods bytes with
    | ok methods => simp
    | error error => simp
  · refine iff_of_true ?_ fun all => isTable ⟨all.1, all.2.1⟩
    cases kind <;> cases info <;> first
      | exact ⟨_, rfl⟩
      | exact absurd ⟨rfl, _, rfl⟩ isTable

/-- Loading panics exactly when it comes to an entry whose end does not fit in a word. -/
theorem load_ends_iff {platform : Platform} (entries : List RpkgEntry) : ∀ loaded : LoadedRpkg,
    Ends (entries.foldlM (loadEntry codec platform data) loaded) ↔
      LoadBounded codec data entries := by
  induction entries with
  | nil =>
      intro loaded
      refine iff_of_true ends_ok ?_
      intro before entry after split
      cases (List.append_eq_nil_iff.mp split.symm).2
  | cons entry entries ih =>
      intro loaded
      rw [List.foldlM_cons]
      by_cases overflow : 2 ^ 64 ≤ entry.stop
      · -- The first entry overflows, and nothing stands before it.
        refine iff_of_false (fun ends => ?_) fun bounded => ?_
        · have panics := ends .overflow (by
            unfold loadEntry
            rw [if_pos overflow]
            rfl)
          cases panics
        · obtain ⟨earlier, member, -⟩ := bounded [] entry entries rfl overflow
          cases member
      · by_cases outside : data.length < entry.stop
        · refine iff_of_true ?_ ?_
          · unfold loadEntry
            rw [if_neg overflow, if_pos outside]
            exact ends_error
          · intro before other after split isOver
            cases before with
            | nil =>
                cases split
                exact absurd isOver overflow
            | cons first before =>
                cases split
                exact ⟨entry, List.mem_cons_self, .inl outside⟩
        · have step : loadEntry codec platform data loaded entry =
              loaded.absorb codec platform entry.kind entry.info (entry.slice data) := by
            unfold loadEntry
            rw [if_neg overflow, if_neg outside]
          rw [step]
          have taken := @absorb_isOk_iff ε codec platform loaded entry.kind entry.info
            (entry.slice data)
          cases absorbed : loaded.absorb codec platform entry.kind entry.info
              (entry.slice data) with
          | error stop =>
              have refused : Refused codec data entry := by
                refine .inr ?_
                by_contra fine
                obtain ⟨next, isNext⟩ := taken.mpr fine
                rw [absorbed] at isNext
                cases isNext
              refine iff_of_true ?_ ?_
              · have ends := @absorb_ends ε codec platform loaded entry.kind entry.info
                  (entry.slice data)
                rw [absorbed] at ends
                intro other isStop
                exact ends other isStop
              · intro before other after split isOver
                cases before with
                | nil =>
                    cases split
                    exact absurd isOver overflow
                | cons first before =>
                    cases split
                    exact ⟨entry, List.mem_cons_self, refused⟩
          | ok next =>
              have fine : ¬Refused codec data entry := by
                rintro (outside' | undecoded)
                · exact outside outside'
                · exact taken.mp ⟨next, absorbed⟩ undecoded
              show Ends (entries.foldlM (loadEntry codec platform data) next) ↔ _
              rw [ih next]
              constructor
              · intro bounded before other after split isOver
                cases before with
                | nil =>
                    cases split
                    exact absurd isOver overflow
                | cons first before =>
                    obtain ⟨rfl, split'⟩ := List.cons.inj split
                    obtain ⟨earlier, member, refused⟩ := bounded before other after split' isOver
                    exact ⟨earlier, List.mem_cons_of_mem _ member, refused⟩
              · intro bounded before other after split isOver
                obtain ⟨earlier, member, refused⟩ :=
                  bounded (entry :: before) other after (congrArg (entry :: ·) split) isOver
                rcases List.mem_cons.mp member with rfl | later
                · exact absurd refused fine
                · exact ⟨earlier, later, refused⟩

def keptSize (target : Platform) (entries : List RpkgEntry) : Nat :=
  ((entries.filter fun entry => keeps target entry.info).map fun entry => entry.size.toNat).sum

/-- Every entry lies in the file, and what is kept for the platform is counted in a word. -/
def StripBounded (data : List UInt8) (target : Platform) (entries : List RpkgEntry) : Prop :=
  (∀ entry ∈ entries, entry.stop < 2 ^ 64 ∧ entry.stop ≤ data.length) ∧
    keptSize target entries < 2 ^ 64

theorem strip_ends_iff {target : Platform} (entries : List RpkgEntry) : ∀ {offset : Nat},
    offset < 2 ^ 64 →
    (Ends (@stripEntries ε target data offset entries) ↔
      (∀ entry ∈ entries, entry.stop < 2 ^ 64 ∧ entry.stop ≤ data.length) ∧
        offset + keptSize target entries < 2 ^ 64) := by
  induction entries with
  | nil =>
      intro offset fits
      exact iff_of_true ends_ok ⟨fun _ member => (List.not_mem_nil member).elim, fits⟩
  | cons entry entries ih =>
      intro offset fits
      unfold stripEntries
      rw [List.forall_mem_cons]
      by_cases overflow : 2 ^ 64 ≤ entry.stop
      · rw [if_pos overflow]
        refine iff_of_false (fun ends => ?_) fun bounded => ?_
        · cases ends .overflow rfl
        · exact Nat.not_lt.mpr overflow bounded.1.1.1
      · rw [if_neg overflow]
        by_cases outside : data.length < entry.stop
        · rw [if_pos outside]
          refine iff_of_false (fun ends => ?_) fun bounded => ?_
          · cases ends .outOfRange rfl
          · exact Nat.not_le.mpr outside bounded.1.1.2
        · rw [if_neg outside]
          have inside : entry.stop < 2 ^ 64 ∧ entry.stop ≤ data.length :=
            ⟨Nat.not_le.mp overflow, Nat.not_lt.mp outside⟩
          cases kept : keeps target entry.info with
          | false =>
              have same : keptSize target (entry :: entries) = keptSize target entries := by
                unfold keptSize
                rw [List.filter_cons, if_neg (by rw [kept]; exact Bool.false_ne_true)]
              rw [if_neg Bool.false_ne_true, ih fits, same]
              exact and_congr_left fun _ => (and_iff_right inside).symm
          | true =>
              have more : keptSize target (entry :: entries) =
                  entry.size.toNat + keptSize target entries := by
                unfold keptSize
                rw [List.filter_cons, if_pos kept, List.map_cons, List.sum_cons]
              rw [if_pos rfl, more, ← Nat.add_assoc]
              by_cases fits' : offset + entry.size.toNat < 2 ^ 64
              · rw [if_pos fits', ends_map, ih fits']
                exact and_congr_left fun _ => (and_iff_right inside).symm
              · rw [if_neg fits']
                refine iff_of_false (fun ends => ?_) fun bounded => ?_
                · cases ends .overflow rfl
                · exact fits' (Nat.lt_of_le_of_lt (Nat.le_add_right _ _) bounded.2)

/-- Loading and stripping, on and for any platform, end with a value or an error. -/
def Total (codec : Codec ε) (data : List UInt8) : Prop :=
  ∀ platform, Ends (loadRpkg codec platform data) ∧ Ends (stripRpkg codec platform data)

/-- The bounds of the table of contents, where the bytes have one. -/
def Bounded (codec : Codec ε) (data : List UInt8) : Prop :=
  ∀ toc, readToc codec data = .ok toc →
    LoadBounded codec data toc.entries ∧ ∀ target, StripBounded data target toc.entries

theorem total_iff (codec : Codec ε) (data : List UInt8) :
    Total codec data ↔ Bounded codec data := by
  have footer := readToc_ends codec data
  unfold Total Bounded loadRpkg stripRpkg
  cases table : readToc codec data with
  | error stop =>
      rw [table] at footer
      refine iff_of_true (fun platform => ⟨?_, ?_⟩) fun toc absurd => by cases absurd
      · intro other isStop
        cases isStop
        exact footer stop rfl
      · intro other isStop
        cases isStop
        exact footer stop rfl
  | ok toc =>
      have loads : ∀ platform, Ends ((Except.ok toc : Except (Stop ε) RpkgToc).bind fun toc =>
          toc.entries.foldlM (loadEntry codec platform data) (.nothing toc.packageName)) ↔
            LoadBounded codec data toc.entries := fun platform => load_ends_iff toc.entries _
      have strips : ∀ target, Ends ((Except.ok toc : Except (Stop ε) RpkgToc).bind fun toc =>
          (stripEntries target data 0 toc.entries).map fun written =>
            written.2 ++ trailer codec ⟨toc.packageName, written.1⟩) ↔
              StripBounded data target toc.entries := by
        intro target
        have counted := @strip_ends_iff ε data target toc.entries 0 (by decide)
        rw [Nat.zero_add] at counted
        exact ends_map.trans counted
      constructor
      · intro total other isToc
        obtain rfl := Except.ok.inj isToc
        exact ⟨(loads ⟨"", ""⟩).mp (total _).1, fun target => (strips target).mp (total target).2⟩
      · intro bounded platform
        obtain ⟨isBounded, stripped⟩ := bounded toc rfl
        exact ⟨(loads platform).mpr isBounded, (strips platform).mpr (stripped platform)⟩

section Postcard

open Library (Wire)

def EntryKind.toWire : EntryKind → Nat
  | .nativeLib => 0
  | .haxeSource => 1
  | .methodTable => 2
  | .wasmComponent => 3
  | .jsHost => 4
  | .jsHostWasm => 5

def EntryKind.ofWire : Nat → Option EntryKind
  | 0 => some .nativeLib
  | 1 => some .haxeSource
  | 2 => some .methodTable
  | 3 => some .wasmComponent
  | 4 => some .jsHost
  | 5 => some .jsHostWasm
  | _ => none

def MetaCarried : Nat → Type
  | 0 => String × String
  | _ + 1 => String

def metaWires : ∀ number, Wire (MetaCarried number)
  | 0 => Wire.text.pair Wire.text
  | _ + 1 => Wire.text

def EntryMeta.toWire : EntryMeta → Σ number, MetaCarried number
  | .nativeLib os arch => ⟨0, (os, arch)⟩
  | .haxeSource modulePath => ⟨1, modulePath⟩
  | .methodTable pluginName => ⟨2, pluginName⟩
  | .wasmComponent name => ⟨3, name⟩
  | .jsHost moduleName => ⟨4, moduleName⟩
  | .jsHostWasm moduleName => ⟨5, moduleName⟩

def EntryMeta.ofWire : (Σ number, MetaCarried number) → Option EntryMeta
  | ⟨0, (os, arch)⟩ => some (.nativeLib os arch)
  | ⟨1, modulePath⟩ => some (.haxeSource modulePath)
  | ⟨2, pluginName⟩ => some (.methodTable pluginName)
  | ⟨3, name⟩ => some (.wasmComponent name)
  | ⟨4, moduleName⟩ => some (.jsHost moduleName)
  | ⟨5, moduleName⟩ => some (.jsHostWasm moduleName)
  | ⟨_ + 6, _⟩ => none

def kindWire : Wire EntryKind :=
  Wire.nat.image EntryKind.toWire EntryKind.ofWire fun kind => by cases kind <;> rfl

def metaWire : Wire EntryMeta :=
  (Wire.choice metaWires).image EntryMeta.toWire EntryMeta.ofWire
    fun info => by cases info <;> rfl

def entryWire : Wire RpkgEntry :=
  (kindWire.pair (Wire.word.pair (Wire.word.pair metaWire))).image
    (fun entry => (entry.kind, entry.offset, entry.size, entry.info))
    (fun fields => some ⟨fields.1, fields.2.1, fields.2.2.1, fields.2.2.2⟩) fun _ => rfl

def tocWire : Wire RpkgToc :=
  (Wire.text.pair entryWire.list).image (fun toc => (toc.packageName, toc.entries))
    (fun fields => some ⟨fields.1, fields.2⟩) fun _ => rfl

def methodWire : Wire MethodDescEntry :=
  (Wire.text.pair (Wire.text.pair (Wire.text.pair (Wire.bool.pair (Wire.byte.pair
    (Wire.byte.pair Wire.byte.list)))))).image
    (fun entry => (entry.symbolName, entry.className, entry.methodName, entry.isStatic,
      entry.paramCount, entry.returnType, entry.paramTypes))
    (fun fields => some ⟨fields.1, fields.2.1, fields.2.2.1, fields.2.2.2.1, fields.2.2.2.2.1,
      fields.2.2.2.2.2.1, fields.2.2.2.2.2.2⟩) fun _ => rfl

/-- Decoding reads a value and leaves what follows it. -/
def decodeWith {α : Type} (wire : Wire α) (bytes : List UInt8) : Except Unit α :=
  match wire.read bytes with
  | some found => .ok found.1
  | none => .error ()

theorem decodeWith_write {α : Type} (wire : Wire α) (value : α) :
    decodeWith wire (wire.write value) = .ok value := by
  have back := wire.read_write value []
  rw [List.append_nil] at back
  unfold decodeWith
  rw [back]

/-- Numbers in groups of seven bits, texts and lists behind their lengths, alternatives behind
their numbers, fields in their order. -/
def postcard : Codec Unit where
  encodeToc := tocWire.write
  decodeToc := decodeWith tocWire
  encodeMethods := methodWire.list.write
  decodeMethods := decodeWith methodWire.list

theorem postcard_faithful : postcard.Faithful :=
  ⟨decodeWith_write tocWire, decodeWith_write methodWire.list⟩

/-- A table whose entry states an offset of `1` and a size of `2 ^ 64 - 1`. -/
def hostileToc : RpkgToc := ⟨"p", [⟨.haxeSource, 1, 0xFFFFFFFFFFFFFFFF, .haxeSource "m"⟩]⟩

end Postcard

end Rayzor.Rpkg
