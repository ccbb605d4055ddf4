import Rayzor.Library.OrdMap
import Rayzor.Library.Readers
import Rayzor.Library.Wire

/-!
Contract: package archives, which hold their entries one after the other, then a table of contents
and a footer.

Owns: the builder and its writer, the reader, and the rewriting of an archive for one platform.

Does not own: the serialisation of the table and of method tables, and the file system.
-/

namespace Rayzor.Rpkg

open Library (OrdMap)
open Library.Wire (asBytes fromUtf8)

variable {ε : Type}

inductive EntryKind where
  | nativeLib
  | haxeSource
  | methodTable
  | wasmComponent
  | jsHost
  | jsHostWasm
deriving DecidableEq

inductive EntryMeta where
  | nativeLib (os arch : String)
  | haxeSource (modulePath : String)
  | methodTable (pluginName : String)
  | wasmComponent (name : String)
  | jsHost (moduleName : String)
  | jsHostWasm (moduleName : String)
deriving DecidableEq

structure RpkgEntry where
  kind : EntryKind
  offset : UInt64
  size : UInt64
  info : EntryMeta
deriving DecidableEq

structure RpkgToc where
  packageName : String
  entries : List RpkgEntry
deriving DecidableEq

structure MethodDescEntry where
  symbolName : String
  className : String
  methodName : String
  isStatic : Bool
  paramCount : UInt8
  returnType : UInt8
  paramTypes : List UInt8
deriving DecidableEq

/-- The serialisation of tables, with the errors it gives for malformed bytes. -/
structure Codec (ε : Type) where
  encodeToc : RpkgToc → List UInt8
  decodeToc : List UInt8 → Except ε RpkgToc
  encodeMethods : List MethodDescEntry → List UInt8
  decodeMethods : List UInt8 → Except ε (List MethodDescEntry)

/-- What was serialised is read back. -/
structure Codec.Faithful (codec : Codec ε) : Prop where
  toc : ∀ toc, codec.decodeToc (codec.encodeToc toc) = .ok toc
  methods : ∀ methods, codec.decodeMethods (codec.encodeMethods methods) = .ok methods

inductive RpkgError (ε : Type) where
  /-- `UnexpectedEof`: "entry data out of bounds: start..end in length byte file". -/
  | outOfBounds (start stop length : Nat)
  | invalidMagic
  | unsupportedVersion (version : UInt32)
  | deserializationFailed (error : ε)
  | tocTooLarge (size : Nat)
deriving DecidableEq

/-- How a function ends without a value: with an error, or in a panic. -/
inductive Stop (ε : Type) where
  | error (error : RpkgError ε)
  | overflow
  | outOfRange
deriving DecidableEq

def Stop.isPanic : Stop ε → Bool
  | .error _ => false
  | .overflow | .outOfRange => true

structure LoadedRpkg where
  packageName : String
  methods : List MethodDescEntry
  haxeSources : OrdMap String String
  nativeLibBytes : Option (List UInt8)
  wasmComponentBytes : Option (List UInt8)
  pluginName : Option String
  jsHosts : OrdMap String String
  jsHostWasms : OrdMap String (List UInt8)

def rpkgMagic : List UInt8 := [0x52, 0x50, 0x4B, 0x47]

def rpkgVersion : UInt32 := 1

def footerSize : Nat := 12

/-- The operating system and architecture that native libraries are for. -/
structure Platform where
  os : String
  arch : String

structure Item where
  kind : EntryKind
  info : EntryMeta
  data : List UInt8

structure RpkgBuilder where
  packageName : String
  entries : List Item

namespace RpkgBuilder

def new (packageName : String) : RpkgBuilder := ⟨packageName, []⟩

def push (builder : RpkgBuilder) (kind : EntryKind) (info : EntryMeta) (data : List UInt8) :
    RpkgBuilder :=
  { builder with entries := builder.entries ++ [⟨kind, info, data⟩] }

def addNativeLib (builder : RpkgBuilder) (data : List UInt8) (os arch : String) : RpkgBuilder :=
  builder.push .nativeLib (.nativeLib os arch) data

def addHaxeSource (builder : RpkgBuilder) (modulePath source : String) : RpkgBuilder :=
  builder.push .haxeSource (.haxeSource modulePath) (asBytes source)

def addWasmComponent (builder : RpkgBuilder) (name : String) (data : List UInt8) : RpkgBuilder :=
  builder.push .wasmComponent (.wasmComponent name) data

def addJsHost (builder : RpkgBuilder) (moduleName jsSource : String) : RpkgBuilder :=
  builder.push .jsHost (.jsHost moduleName) (asBytes jsSource)

def addJsHostWithWasm (builder : RpkgBuilder) (moduleName jsSource : String)
    (wasmBytes : List UInt8) : RpkgBuilder :=
  (builder.addJsHost moduleName jsSource).push .jsHostWasm (.jsHostWasm moduleName) wasmBytes

def addMethodTable (builder : RpkgBuilder) (codec : Codec ε) (pluginName : String)
    (methods : List MethodDescEntry) : RpkgBuilder :=
  builder.push .methodTable (.methodTable pluginName) (codec.encodeMethods methods)

end RpkgBuilder

/-- The table entries of data written from an offset on. The running offset may overflow. -/
def tabulate : Nat → List Item → Except (Stop ε) (List RpkgEntry)
  | _, [] => .ok []
  | offset, item :: items =>
      if offset + item.data.length < 2 ^ 64 then
        (tabulate (offset + item.data.length) items).map
          (⟨item.kind, UInt64.ofNat offset, UInt64.ofNat item.data.length, item.info⟩ :: ·)
      else .error .overflow

/-- The table, its size as a `u32`, the version and the magic. -/
def trailer (codec : Codec ε) (toc : RpkgToc) : List UInt8 :=
  codec.encodeToc toc ++
    (Library.LittleEndian.bytes 4 (UInt32.ofNat (codec.encodeToc toc).length).toNat ++
      Library.LittleEndian.bytes 4 rpkgVersion.toNat ++ rpkgMagic)

def RpkgBuilder.write (builder : RpkgBuilder) (codec : Codec ε) :
    Except (Stop ε) (List UInt8) :=
  (tabulate 0 builder.entries).map fun tocEntries =>
    builder.entries.flatMap Item.data ++ trailer codec ⟨builder.packageName, tocEntries⟩

/-- Footer and table, as both readers begin. -/
def readToc (codec : Codec ε) (data : List UInt8) : Except (Stop ε) RpkgToc :=
  if data.length < footerSize then .error (.error .invalidMagic)
  else
    let footerStart := data.length - footerSize
    let tocSize := Library.LittleEndian.value ((data.drop footerStart).take 4)
    let version := UInt32.ofNat (Library.LittleEndian.value ((data.drop (footerStart + 4)).take 4))
    if (data.drop (footerStart + 8)).take 4 ≠ rpkgMagic then .error (.error .invalidMagic)
    else if version ≠ rpkgVersion then .error (.error (.unsupportedVersion version))
    else if footerStart < tocSize then .error (.error (.tocTooLarge tocSize))
    else
      ((codec.decodeToc ((data.drop (footerStart - tocSize)).take tocSize)).mapError
        fun error => .error (.deserializationFailed error))

namespace RpkgEntry

def stop (entry : RpkgEntry) : Nat := entry.offset.toNat + entry.size.toNat

def slice (entry : RpkgEntry) (data : List UInt8) : List UInt8 :=
  (data.drop entry.offset.toNat).take entry.size.toNat

end RpkgEntry

def LoadedRpkg.absorb (codec : Codec ε) (platform : Platform) (loaded : LoadedRpkg)
    (kind : EntryKind) (info : EntryMeta) (data : List UInt8) : Except (Stop ε) LoadedRpkg :=
  match kind, info with
  | .nativeLib, .nativeLib os arch =>
      .ok (if os = platform.os ∧ arch = platform.arch then
        { loaded with nativeLibBytes := some data } else loaded)
  | .haxeSource, .haxeSource modulePath =>
      .ok (match fromUtf8 data with
        | some source => { loaded with haxeSources := loaded.haxeSources.insert modulePath source }
        | none => loaded)
  | .methodTable, .methodTable pluginName =>
      match codec.decodeMethods data with
      | .ok methods => .ok { loaded with pluginName := some pluginName, methods := methods }
      | .error error => .error (.error (.deserializationFailed error))
  | .wasmComponent, .wasmComponent _ => .ok { loaded with wasmComponentBytes := some data }
  | .jsHost, .jsHost moduleName =>
      .ok (match fromUtf8 data with
        | some jsSource => { loaded with jsHosts := loaded.jsHosts.insert moduleName jsSource }
        | none => loaded)
  | .jsHostWasm, .jsHostWasm moduleName =>
      .ok { loaded with jsHostWasms := loaded.jsHostWasms.insert moduleName data }
  | _, _ => .ok loaded

def loadEntry (codec : Codec ε) (platform : Platform) (data : List UInt8) (loaded : LoadedRpkg)
    (entry : RpkgEntry) : Except (Stop ε) LoadedRpkg :=
  if 2 ^ 64 ≤ entry.stop then .error .overflow
  else if data.length < entry.stop then
    .error (.error (.outOfBounds entry.offset.toNat entry.stop data.length))
  else loaded.absorb codec platform entry.kind entry.info (entry.slice data)

def LoadedRpkg.nothing (packageName : String) : LoadedRpkg where
  packageName := packageName
  methods := []
  haxeSources := .empty
  nativeLibBytes := none
  wasmComponentBytes := none
  pluginName := none
  jsHosts := .empty
  jsHostWasms := .empty

def loadRpkg (codec : Codec ε) (platform : Platform) (data : List UInt8) :
    Except (Stop ε) LoadedRpkg :=
  (readToc codec data).bind fun toc =>
    toc.entries.foldlM (loadEntry codec platform data) (.nothing toc.packageName)

/-- Native libraries are kept for their platform only. -/
def keeps (target : Platform) : EntryMeta → Bool
  | .nativeLib os arch => os = target.os ∧ arch = target.arch
  | _ => true

/-- The new table entries and the bytes written, from an offset on. No bound is checked before the
data is sliced. -/
def stripEntries (target : Platform) (data : List UInt8) :
    Nat → List RpkgEntry → Except (Stop ε) (List RpkgEntry × List UInt8)
  | _, [] => .ok ([], [])
  | offset, entry :: entries =>
      if 2 ^ 64 ≤ entry.stop then .error .overflow
      else if data.length < entry.stop then .error .outOfRange
      else if keeps target entry.info then
        if offset + entry.size.toNat < 2 ^ 64 then
          (stripEntries target data (offset + entry.size.toNat) entries).map fun written =>
            (⟨entry.kind, UInt64.ofNat offset, entry.size, entry.info⟩ :: written.1,
              entry.slice data ++ written.2)
        else .error .overflow
      else stripEntries target data offset entries

def stripRpkg (codec : Codec ε) (target : Platform) (data : List UInt8) :
    Except (Stop ε) (List UInt8) :=
  (readToc codec data).bind fun toc =>
    (stripEntries target data 0 toc.entries).map fun written =>
      written.2 ++ trailer codec ⟨toc.packageName, written.1⟩

end Rayzor.Rpkg
