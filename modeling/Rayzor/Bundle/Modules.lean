import Rayzor.Ir.Blocks

/-!
Contract: the modules of a bundle, as the tree shaker reads them.

Owns: the parts of a module beside its code that decide what is kept (names,
attributes, globals with their initializers, type definitions, the string
pool), what an instruction or a constant names, and the choice of the entry.

Does not own: which of the named things are kept. Symbols, metadata, linkage and
source locations are left out. A function's identifier is its key in the table
of its module.
-/

namespace Rayzor.Bundle

open Ir
open Library (OrdMap)

structure IrGlobal where
  name : String
  initializer : Option IrValue

/-- A type definition with the identifiers a class is known by at run time. -/
structure IrTypeDef where
  typeId : Nat
  runtimeTypeId : Option Nat
  superTypeId : Option Nat

structure StringPool where
  strings : OrdMap Nat String
  stringToId : OrdMap String Nat
  nextId : Nat

def StringPool.retain (pool : StringPool) (keep : Nat → String → Bool) : StringPool :=
  let strings := pool.strings.filter keep
  { pool with
    strings
    stringToId := pool.stringToId.filter fun _ id => strings.contains id }

structure BundleFunction where
  function : IrFunction
  qualifiedName : Option String
  custom : OrdMap String String
  wasmExport : Bool

namespace BundleFunction

def name (func : BundleFunction) : String := func.function.name

def hasNoBlocks (func : BundleFunction) : Bool := func.function.cfg.blocks.entries.isEmpty

/-- One block, nothing in it, and no way on. -/
def isForwardStub (func : BundleFunction) : Bool :=
  func.function.cfg.blocks.entries.length == 1 &&
    func.function.cfg.blocks.values.all fun block =>
      block.instructions.isEmpty && match block.terminator with
        | .unreachable => true
        | _ => false

end BundleFunction

structure BundleModule where
  name : String
  sourceFile : String
  functions : OrdMap IrFunctionId BundleFunction
  globals : OrdMap IrGlobalId IrGlobal
  types : OrdMap Nat IrTypeDef
  stringPool : StringPool
  externFunctions : OrdMap IrFunctionId IrExternFunction

mutual

def functionsNamed : IrValue → List IrFunctionId
  | .function func => [func]
  | .closure function environment => function :: functionsNamed environment
  | .array elements => functionsNamedByAll elements
  | .struct fields => functionsNamedByAll fields
  | _ => []

def functionsNamedByAll : List IrValue → List IrFunctionId
  | [] => []
  | value :: rest => functionsNamed value ++ functionsNamedByAll rest

end

def namedBy : IrInstruction → List IrFunctionId
  | .callDirect _ funcId _ _ | .functionRef _ funcId | .makeClosure _ funcId _ => [funcId]
  | .const _ value => functionsNamed value
  | .switch _ _ cases => functionsNamedByAll (cases.map Prod.fst)
  | _ => []

def globalNamedBy : IrInstruction → Option IrGlobalId
  | .loadGlobal _ globalId _ | .storeGlobal globalId _ => some globalId
  | _ => none

/-- The low 32 bits of an integer constant of at least that width. -/
def integerBits : IrValue → Option Nat
  | .i32 value | .u32 value => some value.toNat
  | .i64 value | .u64 value => some (value.setWidth 32).toNat
  | _ => none

def fileStem (path : String) : Option (List Char) :=
  let components := (path.toList.splitOn '/').filter fun part => part ≠ [] && part ≠ ['.']
  match components.getLast? with
  | none => none
  | some file =>
      if file = ['.', '.'] then none
      else
        let extension := file.reverse.takeWhile (· ≠ '.')
        let stem := file.take (file.length - extension.length - 1)
        some (if stem.isEmpty then file else stem)

def isOwnMain (module : BundleModule) (func : BundleFunction) : Bool :=
  match fileStem module.sourceFile, func.qualifiedName with
  | some stem, some qualified =>
      let owner := stem ++ ".main".toList
      qualified.toList == owner || ('.' :: owner).isSuffixOf qualified.toList
  | _, _ => false

def hasMainSpelling (name : String) : Bool :=
  name == "Main_main" || name == "Main.main" ||
    ("_main".toList.isSuffixOf name.toList && !"get_main".toList.isSuffixOf name.toList) ||
    ".main".toList.isSuffixOf name.toList

/-- The module's own `main`, then one that was not renumbered, then any, then
the older spellings. -/
def BundleModule.entryFunction (module : BundleModule) : Option IrFunctionId :=
  let named := module.functions.entries.filter fun entry => entry.2.name == "main"
  let chosen := (named.find? fun entry => isOwnMain module entry.2)
    <|> (named.find? fun entry => entry.1 < 100000)
    <|> named.head?
    <|> module.functions.entries.find? fun entry => hasMainSpelling entry.2.name
  chosen.map Prod.fst

/-- A function of a bundle: the index of its module and its identifier. -/
abbrev Place := Nat × IrFunctionId

def entryInModule (entryFunction : String) (module : BundleModule) : Option IrFunctionId :=
  (if entryFunction == "main" then module.entryFunction else none) <|>
    (module.functions.entries.find? fun entry => entry.2.name == entryFunction).map Prod.fst

def entryAnywhere (entryFunction : String) (module : BundleModule) : Option IrFunctionId :=
  (module.functions.entries.find? fun entry => entry.2.name == entryFunction ||
    ('_' :: entryFunction.toList).isSuffixOf entry.2.name.toList).map Prod.fst

def findEntry (modules : List BundleModule) (entryModule entryFunction : String) :
    Option Place :=
  let at' := fun (find : BundleModule → Option IrFunctionId)
      (indexed : BundleModule × Nat) => (find indexed.1).map fun id => (indexed.2, id)
  (modules.zipIdx.findSome? fun indexed =>
      if indexed.1.name == entryModule then at' (entryInModule entryFunction) indexed else none)
    <|> modules.zipIdx.findSome? (at' (entryAnywhere entryFunction))

end Rayzor.Bundle
