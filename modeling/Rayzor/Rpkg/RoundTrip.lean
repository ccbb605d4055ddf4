import Rayzor.Library.Outcome
import Rayzor.Rpkg.Archive

/-!
Contract: what is read from an archive is what was written to it.
-/

namespace Rayzor.Rpkg

open Library (OrdMap)
open Library.Wire (asBytes fromUtf8 fromUtf8_asBytes)
open List (Forall₂)

variable {ε : Type} {codec : Codec ε} {platform : Platform}

/-- One call that adds to a builder. -/
inductive Addition where
  | nativeLib (data : List UInt8) (os arch : String)
  | haxeSource (modulePath source : String)
  | wasmComponent (name : String) (data : List UInt8)
  | jsHost (moduleName jsSource : String)
  | jsHostWithWasm (moduleName jsSource : String) (wasmBytes : List UInt8)
  | methodTable (pluginName : String) (methods : List MethodDescEntry)

def RpkgBuilder.add (codec : Codec ε) (builder : RpkgBuilder) : Addition → RpkgBuilder
  | .nativeLib data os arch => builder.addNativeLib data os arch
  | .haxeSource modulePath source => builder.addHaxeSource modulePath source
  | .wasmComponent name data => builder.addWasmComponent name data
  | .jsHost moduleName jsSource => builder.addJsHost moduleName jsSource
  | .jsHostWithWasm moduleName jsSource wasmBytes =>
      builder.addJsHostWithWasm moduleName jsSource wasmBytes
  | .methodTable pluginName methods => builder.addMethodTable codec pluginName methods

def RpkgBuilder.ofAdditions (codec : Codec ε) (packageName : String) (additions : List Addition) :
    RpkgBuilder :=
  additions.foldl (RpkgBuilder.add codec) (.new packageName)

namespace Addition

def libraryFor (platform : Platform) : Addition → Option (List UInt8)
  | .nativeLib data os arch => if os = platform.os ∧ arch = platform.arch then some data else none
  | _ => none

def sourceAt (key : String) : Addition → Option String
  | .haxeSource modulePath source => if modulePath = key then some source else none
  | _ => none

def component : Addition → Option (List UInt8)
  | .wasmComponent _ data => some data
  | _ => none

def hostAt (key : String) : Addition → Option String
  | .jsHost moduleName jsSource => if moduleName = key then some jsSource else none
  | .jsHostWithWasm moduleName jsSource _ => if moduleName = key then some jsSource else none
  | _ => none

def companionAt (key : String) : Addition → Option (List UInt8)
  | .jsHostWithWasm moduleName _ wasmBytes => if moduleName = key then some wasmBytes else none
  | _ => none

def table : Addition → Option (String × List MethodDescEntry)
  | .methodTable pluginName methods => some (pluginName, methods)
  | _ => none

end Addition

def lastOf {α : Type} (told : Addition → Option α) (additions : List Addition) : Option α :=
  (additions.filterMap told).getLast?

/-- A package loaded on a platform has what was added, the last addition of each kind and key. -/
structure Holds (platform : Platform) (packageName : String) (additions : List Addition)
    (loaded : LoadedRpkg) : Prop where
  packageName_eq : loaded.packageName = packageName
  haxeSources_eq : ∀ key, loaded.haxeSources.get? key = lastOf (Addition.sourceAt key) additions
  jsHosts_eq : ∀ key, loaded.jsHosts.get? key = lastOf (Addition.hostAt key) additions
  jsHostWasms_eq : ∀ key, loaded.jsHostWasms.get? key = lastOf (Addition.companionAt key) additions
  pluginName_eq : loaded.pluginName = (lastOf Addition.table additions).map Prod.fst
  methods_eq : loaded.methods = ((lastOf Addition.table additions).map Prod.snd).getD []
  wasmComponentBytes_eq : loaded.wasmComponentBytes = lastOf Addition.component additions
  nativeLibBytes_eq : loaded.nativeLibBytes = lastOf (Addition.libraryFor platform) additions

theorem lastOf_append {α : Type} (told : Addition → Option α) (additions : List Addition)
    (addition : Addition) :
    lastOf told (additions ++ [addition]) = (told addition).or (lastOf told additions) := by
  unfold lastOf
  rw [List.filterMap_append, List.getLast?_append]
  congr 1
  rw [List.filterMap_cons, List.filterMap_nil]
  cases told addition <;> rfl

def Addition.items (codec : Codec ε) (addition : Addition) : List Item :=
  ((RpkgBuilder.new "").add codec addition).entries

theorem RpkgBuilder.add_entries (builder : RpkgBuilder) (addition : Addition) :
    (builder.add codec addition).packageName = builder.packageName ∧
      (builder.add codec addition).entries = builder.entries ++ addition.items codec := by
  cases addition <;>
    simp [add, Addition.items, addNativeLib, addHaxeSource, addWasmComponent, addJsHost,
      addJsHostWithWasm, addMethodTable, push, new]

theorem RpkgBuilder.ofAdditions_entries (packageName : String) (additions : List Addition) :
    (ofAdditions codec packageName additions).packageName = packageName ∧
      (ofAdditions codec packageName additions).entries =
        additions.flatMap (Addition.items codec) := by
  induction additions using List.reverseRecOn with
  | nil => exact ⟨rfl, rfl⟩
  | append_singleton additions addition ih =>
      have last := @add_entries ε codec (ofAdditions codec packageName additions) addition
      have split : ofAdditions codec packageName (additions ++ [addition]) =
          (ofAdditions codec packageName additions).add codec addition := by
        unfold ofAdditions
        rw [List.foldl_append]
        rfl
      rw [split, last.1, last.2, ih.1, ih.2,
        List.flatMap_append, List.flatMap_singleton]
      exact ⟨rfl, rfl⟩

/-- Items added to a package, in their order. -/
def LoadedRpkg.absorbAll (codec : Codec ε) (platform : Platform) (loaded : LoadedRpkg)
    (items : List Item) : Except (Stop ε) LoadedRpkg :=
  items.foldlM (fun loaded item => loaded.absorb codec platform item.kind item.info item.data) loaded

/-- A package with one addition more. -/
def LoadedRpkg.gain (platform : Platform) (loaded : LoadedRpkg) : Addition → LoadedRpkg
  | .nativeLib data os arch =>
      if os = platform.os ∧ arch = platform.arch then { loaded with nativeLibBytes := some data }
      else loaded
  | .haxeSource modulePath source =>
      { loaded with haxeSources := loaded.haxeSources.insert modulePath source }
  | .wasmComponent _ data => { loaded with wasmComponentBytes := some data }
  | .jsHost moduleName jsSource =>
      { loaded with jsHosts := loaded.jsHosts.insert moduleName jsSource }
  | .jsHostWithWasm moduleName jsSource wasmBytes =>
      { loaded with
        jsHosts := loaded.jsHosts.insert moduleName jsSource
        jsHostWasms := loaded.jsHostWasms.insert moduleName wasmBytes }
  | .methodTable pluginName methods =>
      { loaded with pluginName := some pluginName, methods := methods }

theorem absorbAll_items (faithful : codec.Faithful) (loaded : LoadedRpkg) (addition : Addition) :
    loaded.absorbAll codec platform (addition.items codec) = .ok (loaded.gain platform addition) := by
  unfold LoadedRpkg.absorbAll
  cases addition with
  | nativeLib data os arch => rfl
  | wasmComponent name data => rfl
  | haxeSource modulePath source =>
      show Except.bind (loaded.absorb codec platform .haxeSource (.haxeSource modulePath)
        (asBytes source)) _ = _
      rw [LoadedRpkg.absorb, fromUtf8_asBytes]
      rfl
  | jsHost moduleName jsSource =>
      show Except.bind (loaded.absorb codec platform .jsHost (.jsHost moduleName)
        (asBytes jsSource)) _ = _
      rw [LoadedRpkg.absorb, fromUtf8_asBytes]
      rfl
  | jsHostWithWasm moduleName jsSource wasmBytes =>
      have both : (Addition.jsHostWithWasm moduleName jsSource wasmBytes).items codec =
          [⟨.jsHost, .jsHost moduleName, asBytes jsSource⟩,
            ⟨.jsHostWasm, .jsHostWasm moduleName, wasmBytes⟩] := rfl
      rw [both, List.foldlM_cons, LoadedRpkg.absorb, fromUtf8_asBytes]
      rfl
  | methodTable pluginName methods =>
      show Except.bind (loaded.absorb codec platform .methodTable (.methodTable pluginName)
        (codec.encodeMethods methods)) _ = _
      rw [LoadedRpkg.absorb, faithful.methods]
      rfl

theorem Holds.gain {packageName : String} {additions : List Addition} {loaded : LoadedRpkg}
    (holds : Holds platform packageName additions loaded) (addition : Addition) :
    Holds platform packageName (additions ++ [addition]) (loaded.gain platform addition) := by
  obtain ⟨name, sources, hosts, companions, plugin, methods, component, library⟩ := holds
  have keyed : ∀ {ν : Type} (map : OrdMap String ν) (key other : String) (value : ν),
      (map.insert key value).get? other =
        (if key = other then some value else none).or (map.get? other) := by
    intro ν map key other value
    rw [OrdMap.get?_insert]
    by_cases same : other = key
    · rw [if_pos same, if_pos same.symm, Option.some_or]
    · rw [if_neg same, if_neg (Ne.symm same), Option.none_or]
  cases addition with
  | nativeLib data os arch =>
      by_cases here : os = platform.os ∧ arch = platform.arch
      · have isGained : loaded.gain platform (.nativeLib data os arch) =
            { loaded with nativeLibBytes := some data } := if_pos here
        rw [isGained]
        constructor <;> simp_all [lastOf_append, Addition.sourceAt, Addition.hostAt,
          Addition.companionAt, Addition.table, Addition.component, Addition.libraryFor]
      · have isSame : loaded.gain platform (.nativeLib data os arch) = loaded := if_neg here
        have isNone : Addition.libraryFor platform (.nativeLib data os arch) = none := if_neg here
        rw [isSame]
        constructor <;> simp_all [lastOf_append, Addition.sourceAt, Addition.hostAt,
          Addition.companionAt, Addition.table, Addition.component]
  | _ =>
      constructor <;> simp_all [lastOf_append, LoadedRpkg.gain, Addition.sourceAt, Addition.hostAt,
        Addition.companionAt, Addition.table, Addition.component, Addition.libraryFor]

theorem holds_nothing (packageName : String) :
    Holds platform packageName [] (.nothing packageName) := by
  constructor <;> intros <;> rfl

/-- Absorbing everything that was added leaves the package with just that. -/
theorem absorbAll_additions (faithful : codec.Faithful) (packageName : String)
    (additions : List Addition) :
    ∃ loaded, (LoadedRpkg.nothing packageName).absorbAll codec platform
        (additions.flatMap (Addition.items codec)) = .ok loaded ∧
      Holds platform packageName additions loaded := by
  induction additions using List.reverseRecOn with
  | nil => exact ⟨_, rfl, holds_nothing packageName⟩
  | append_singleton additions addition ih =>
      obtain ⟨loaded, isLoaded, holds⟩ := ih
      refine ⟨loaded.gain platform addition, ?_, holds.gain addition⟩
      rw [List.flatMap_append, List.flatMap_singleton]
      unfold LoadedRpkg.absorbAll at isLoaded ⊢
      rw [List.foldlM_append, isLoaded]
      exact absorbAll_items faithful loaded addition

structure Laid (file : List UInt8) (entry : RpkgEntry) (item : Item) : Prop where
  kind_eq : entry.kind = item.kind
  info_eq : entry.info = item.info
  stop_lt : entry.stop < 2 ^ 64
  stop_le : entry.stop ≤ file.length
  slice_eq : entry.slice file = item.data

theorem loadEntry_of_laid {file : List UInt8} {entry : RpkgEntry} {item : Item}
    (laid : Laid file entry item) (loaded : LoadedRpkg) :
    loadEntry codec platform file loaded entry =
      loaded.absorb codec platform item.kind item.info item.data := by
  unfold loadEntry
  rw [if_neg (Nat.not_le.mpr laid.stop_lt), if_neg (Nat.not_lt.mpr laid.stop_le), laid.kind_eq,
    laid.info_eq, laid.slice_eq]

theorem load_of_laid {file : List UInt8} {entries : List RpkgEntry} {items : List Item}
    (laid : Forall₂ (Laid file) entries items) : ∀ loaded : LoadedRpkg,
    entries.foldlM (loadEntry codec platform file) loaded =
      loaded.absorbAll codec platform items := by
  unfold LoadedRpkg.absorbAll
  induction laid with
  | nil => exact fun _ => rfl
  | cons first _ ih =>
      intro loaded
      rw [List.foldlM_cons, List.foldlM_cons, loadEntry_of_laid first]
      congr 1
      funext next
      exact ih next

/-- The writer's table finds every item behind those before it. -/
theorem tabulate_laid {items : List Item} : ∀ {before rest : List UInt8}
    {entries : List RpkgEntry}, @tabulate ε before.length items = .ok entries →
      Forall₂ (Laid (before ++ (items.flatMap Item.data ++ rest))) entries items := by
  induction items with
  | nil =>
      intro before rest entries tabulated
      cases tabulated
      exact .nil
  | cons item items ih =>
      intro before rest entries tabulated
      unfold tabulate at tabulated
      split at tabulated
      · rename_i fits
        obtain ⟨later, isLater, rfl⟩ := Library.map_eq_ok.mp tabulated
        rw [← List.length_append] at isLater
        have offset : (UInt64.ofNat before.length).toNat = before.length :=
          UInt64.toNat_ofNat_of_lt' (by show before.length < 2 ^ 64; omega)
        have size : (UInt64.ofNat item.data.length).toNat = item.data.length :=
          UInt64.toNat_ofNat_of_lt' (by show item.data.length < 2 ^ 64; omega)
        have further := @ih (before ++ item.data) rest later isLater
        rw [List.append_assoc] at further
        rw [List.flatMap_cons, List.append_assoc]
        refine .cons ⟨rfl, rfl, ?_, ?_, ?_⟩ further
        · show (UInt64.ofNat before.length).toNat + (UInt64.ofNat item.data.length).toNat < _
          rw [offset, size]
          exact fits
        · show (UInt64.ofNat before.length).toNat + (UInt64.ofNat item.data.length).toNat ≤ _
          rw [offset, size]
          simp only [List.length_append]
          omega
        · show (List.drop (UInt64.ofNat before.length).toNat _).take
            (UInt64.ofNat item.data.length).toNat = _
          rw [offset, size, List.drop_left, List.take_left]
      · cases tabulated

/-- The table of an archive whose footer has room for its size. -/
theorem readToc_trailer (faithful : codec.Faithful) (body : List UInt8) {toc : RpkgToc}
    (fits : (codec.encodeToc toc).length < 2 ^ 32) :
    readToc codec (body ++ trailer codec toc) = .ok toc := by
  have size : (UInt32.ofNat (codec.encodeToc toc).length).toNat = (codec.encodeToc toc).length :=
    UInt32.toNat_ofNat_of_lt' fits
  obtain ⟨first, isFirst⟩ : ∃ first, body ++ codec.encodeToc toc = first := ⟨_, rfl⟩
  obtain ⟨sizeBytes, isSize⟩ : ∃ sizeBytes, sizeBytes =
      Library.LittleEndian.bytes 4 (codec.encodeToc toc).length := ⟨_, rfl⟩
  have four : sizeBytes.length = 4 := by rw [isSize, Library.LittleEndian.length_bytes]
  have value : Library.LittleEndian.value sizeBytes = (codec.encodeToc toc).length := by
    rw [isSize]
    exact Library.LittleEndian.value_bytes fits
  have file : body ++ trailer codec toc =
      first ++ (sizeBytes ++ (Library.LittleEndian.bytes 4 1 ++ rpkgMagic)) := by
    unfold trailer
    rw [size, isSize, ← isFirst]
    simp only [List.append_assoc]
    rfl
  have length : (body ++ trailer codec toc).length = first.length + 12 := by
    rw [file]
    simp only [List.length_append, four]
    rfl
  have firstLength : first.length = body.length + (codec.encodeToc toc).length := by
    rw [← isFirst, List.length_append]
  unfold readToc
  rw [length]
  simp only [footerSize, Nat.add_sub_cancel]
  have atSize : ((body ++ trailer codec toc).drop first.length).take 4 = sizeBytes := by
    rw [file, List.drop_left, ← four, List.take_left]
  have behind : (body ++ trailer codec toc).drop (first.length + 4) =
      Library.LittleEndian.bytes 4 1 ++ rpkgMagic := by
    have skipped : (sizeBytes ++ (Library.LittleEndian.bytes 4 1 ++ rpkgMagic)).drop 4 =
        Library.LittleEndian.bytes 4 1 ++ rpkgMagic := by
      rw [← four, List.drop_left]
    rw [file, ← List.drop_drop, List.drop_left, skipped]
  have atVersion : ((body ++ trailer codec toc).drop (first.length + 4)).take 4 =
      Library.LittleEndian.bytes 4 1 := by
    rw [behind]
    rfl
  have atMagic : ((body ++ trailer codec toc).drop (first.length + 8)).take 4 = rpkgMagic := by
    have eight : first.length + 8 = first.length + 4 + 4 := rfl
    rw [eight, ← List.drop_drop, behind]
    rfl
  have atToc : ((body ++ trailer codec toc).drop (first.length - (codec.encodeToc toc).length)).take
      (codec.encodeToc toc).length = codec.encodeToc toc := by
    have start : first.length - (codec.encodeToc toc).length = body.length := by omega
    rw [start, List.drop_left]
    exact List.take_left
  rw [atSize, atVersion, atMagic, value, atToc, faithful.toc]
  rw [if_neg (by omega), if_neg (fun different => different rfl), if_neg (fun different =>
    different rfl), if_neg (by omega)]
  rfl

/-- The entries of the builder fit in a file, and its table in the field for its size. -/
def Fits (codec : Codec ε) (builder : RpkgBuilder) : Prop :=
  ∃ entries, @tabulate ε 0 builder.entries = .ok entries ∧
    (codec.encodeToc ⟨builder.packageName, entries⟩).length < 2 ^ 32

theorem load_written (faithful : codec.Faithful) (packageName : String)
    (additions : List Addition)
    (fits : Fits codec (RpkgBuilder.ofAdditions codec packageName additions)) :
    ∃ file loaded, (RpkgBuilder.ofAdditions codec packageName additions).write codec = .ok file ∧
      loadRpkg codec platform file = .ok loaded ∧
      Holds platform packageName additions loaded := by
  obtain ⟨entries, tabulated, short⟩ := fits
  obtain ⟨isName, isEntries⟩ := @RpkgBuilder.ofAdditions_entries ε codec packageName additions
  obtain ⟨loaded, absorbed, holds⟩ :=
    @absorbAll_additions ε codec platform faithful packageName additions
  obtain ⟨builder, same⟩ : ∃ builder,
    RpkgBuilder.ofAdditions codec packageName additions = builder := ⟨_, rfl⟩
  rw [same] at tabulated short isName isEntries ⊢
  refine ⟨builder.entries.flatMap Item.data ++ trailer codec ⟨builder.packageName, entries⟩,
    loaded, ?_, ?_, holds⟩
  · unfold RpkgBuilder.write
    rw [tabulated]
    rfl
  · unfold loadRpkg
    rw [readToc_trailer faithful _ short]
    have laid := @tabulate_laid ε _ [] (trailer codec ⟨builder.packageName, entries⟩) entries
      tabulated
    rw [List.nil_append] at laid
    show entries.foldlM (loadEntry codec platform _) (.nothing builder.packageName) = _
    rw [load_of_laid laid, isName, isEntries]
    exact absorbed

theorem absorb_of_dropped {info : EntryMeta} (dropped : keeps platform info = false)
    (loaded : LoadedRpkg) (kind : EntryKind) (data : List UInt8) :
    loaded.absorb codec platform kind info data = .ok loaded := by
  cases info with
  | nativeLib os arch =>
      have elsewhere : ¬(os = platform.os ∧ arch = platform.arch) := of_decide_eq_false dropped
      cases kind with
      | nativeLib =>
          unfold LoadedRpkg.absorb
          simp only [if_neg elsewhere]
      | _ => rfl
  | _ => cases dropped

theorem absorbAll_kept (items : List Item) : ∀ loaded : LoadedRpkg,
    loaded.absorbAll codec platform (items.filter fun item => keeps platform item.info) =
      loaded.absorbAll codec platform items := by
  unfold LoadedRpkg.absorbAll
  induction items with
  | nil => exact fun _ => rfl
  | cons item items ih =>
      intro loaded
      rw [List.filter_cons]
      cases kept : keeps platform item.info with
      | true =>
          rw [if_pos rfl, List.foldlM_cons, List.foldlM_cons]
          congr 1
          funext next
          exact ih next
      | false =>
          rw [if_neg Bool.false_ne_true, ih, List.foldlM_cons,
            absorb_of_dropped kept]
          rfl

/-- Stripping slices every entry and writes the kept ones as a builder would. -/
theorem stripEntries_spec {target : Platform} {data : List UInt8} {entries : List RpkgEntry} :
    ∀ {offset : Nat} {written : List RpkgEntry × List UInt8},
      @stripEntries ε target data offset entries = .ok written →
      ∃ items, Forall₂ (Laid data) entries items ∧
        @tabulate ε offset (items.filter fun item => keeps target item.info) = .ok written.1 ∧
        written.2 = (items.filter fun item => keeps target item.info).flatMap Item.data := by
  induction entries with
  | nil =>
      intro offset written stripped
      cases stripped
      exact ⟨[], .nil, rfl, rfl⟩
  | cons entry entries ih =>
      intro offset written stripped
      unfold stripEntries at stripped
      split at stripped
      · cases stripped
      · rename_i noOverflow
        split at stripped
        · cases stripped
        · rename_i inside
          have laid : Laid data entry ⟨entry.kind, entry.info, entry.slice data⟩ :=
            ⟨rfl, rfl, Nat.not_le.mp noOverflow, Nat.not_lt.mp inside, rfl⟩
          have size : (entry.slice data).length = entry.size.toNat := by
            unfold RpkgEntry.slice
            have bound := laid.stop_le
            unfold RpkgEntry.stop at bound
            rw [List.length_take, List.length_drop]
            omega
          split at stripped
          · rename_i kept
            split at stripped
            · rename_i fits
              obtain ⟨later, isLater, rfl⟩ := Library.map_eq_ok.mp stripped
              obtain ⟨items, further, tabulated, isWritten⟩ := ih isLater
              refine ⟨⟨entry.kind, entry.info, entry.slice data⟩ :: items, .cons laid further,
                ?_, ?_⟩
              · rw [List.filter_cons, if_pos kept, tabulate]
                simp only [size, if_pos fits, tabulated, UInt64.ofNat_toNat]
                rfl
              · rw [List.filter_cons, if_pos kept, List.flatMap_cons, isWritten]
            · cases stripped
          · rename_i notKept
            obtain ⟨items, further, tabulated, isWritten⟩ := ih stripped
            refine ⟨⟨entry.kind, entry.info, entry.slice data⟩ :: items, .cons laid further,
              ?_, ?_⟩
            · rw [List.filter_cons, if_neg notKept]
              exact tabulated
            · rw [List.filter_cons, if_neg notKept]
              exact isWritten

/-- The table that is left for a platform fits in the field for its size. -/
def StrippedFits (codec : Codec ε) (target : Platform) (data : List UInt8) : Prop :=
  ∀ toc written, readToc codec data = .ok toc →
    @stripEntries ε target data 0 toc.entries = .ok written →
    (codec.encodeToc ⟨toc.packageName, written.1⟩).length < 2 ^ 32

theorem load_stripped (faithful : codec.Faithful) {data stripped : List UInt8}
    (fits : StrippedFits codec platform data)
    (isStripped : stripRpkg codec platform data = .ok stripped) :
    loadRpkg codec platform stripped = loadRpkg codec platform data := by
  unfold stripRpkg at isStripped
  cases table : readToc codec data with
  | error stop =>
      rw [table] at isStripped
      cases isStripped
  | ok toc =>
      rw [table] at isStripped
      obtain ⟨written, isWritten, rfl⟩ := Library.map_eq_ok.mp isStripped
      obtain ⟨items, laid, tabulated, isData⟩ := stripEntries_spec isWritten
      have laid' := @tabulate_laid ε _ [] (trailer codec ⟨toc.packageName, written.1⟩) written.1
        tabulated
      rw [List.nil_append, ← isData] at laid'
      unfold loadRpkg
      rw [readToc_trailer faithful _ (fits toc written table isWritten), table]
      show written.1.foldlM (loadEntry codec platform _) (.nothing toc.packageName) =
        toc.entries.foldlM (loadEntry codec platform data) (.nothing toc.packageName)
      rw [load_of_laid laid', load_of_laid laid, absorbAll_kept]

end Rayzor.Rpkg
