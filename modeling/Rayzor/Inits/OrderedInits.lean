import Rayzor.Ir.Blocks
import Rayzor.Library.Discovery

/-!
Contract: the order in which the initialisers of a merged module run.

Owns: the file an id belongs to, what a walk over direct calls collects for one initialiser,
and the loop that takes the earliest ready initialiser until none is left.
-/

namespace Rayzor.Inits

open Ir
open Library (OrdMap discoverWith)

inductive FunctionKind where
  | userDefined
  | mirWrapper
  | externC
  | intrinsic
  deriving DecidableEq

structure MergedFunction where
  id : IrFunctionId
  name : String
  kind : FunctionKind
  cfg : IrControlFlowGraph

/-- Functions are kept under their own ids. -/
structure MergedModule where
  functions : OrdMap IrFunctionId MergedFunction
  keyed : ∀ id function, functions.get? id = some function → function.id = id

def importBase : Nat := 100000

def importStride : Nat := 10000

def u32Max : Nat := 4294967295

def fileOf (id : Nat) : Nat := if id < importBase then u32Max else id / importStride

namespace MergedFunction

def instructions (function : MergedFunction) : List IrInstruction :=
  function.cfg.blocks.values.flatMap (·.instructions)

end MergedFunction

namespace MergedModule

def isUserDefined (module : MergedModule) (id : IrFunctionId) : Bool :=
  (module.functions.get? id).any (·.kind = .userDefined)

def calledBy (module : MergedModule) : IrInstruction → Option IrFunctionId
  | .callDirect _ funcId _ _ => if module.isUserDefined funcId then some funcId else none
  | _ => none

def fileReachedBy (module : MergedModule) : IrInstruction → Option Nat
  | .callDirect _ funcId _ _ =>
      if module.isUserDefined funcId then some (fileOf funcId) else none
  | .loadGlobal _ globalId _ | .storeGlobal globalId _ => some (fileOf globalId)
  | _ => none

def instructionsOf (module : MergedModule) (id : IrFunctionId) : List IrInstruction :=
  match module.functions.get? id with
  | none => []
  | some function => function.instructions

def callees (module : MergedModule) (id : IrFunctionId) : List IrFunctionId :=
  (module.instructionsOf id).filterMap module.calledBy

def collect (module : MergedModule) (reached : Finset Nat) (id : IrFunctionId) : Finset Nat :=
  reached ∪ ((module.instructionsOf id).filterMap module.fileReachedBy).toFinset

/-- The files a walk from one initialiser meets. A callee is pushed when it is seen first. -/
def reachedFiles (module : MergedModule) (init : IrFunctionId) : Option (Finset Nat) :=
  (discoverWith module.callees (fun fresh stack => fresh.reverse ++ stack) module.collect
    (module.functions.keys.length + 1) [init] ([init], ∅)).map Prod.snd

def named (module : MergedModule) (name : String) : List IrFunctionId :=
  (module.functions.values.filter (·.name = name)).map (·.id)

end MergedModule

/-- Every file the initialiser depends on is done or has no initialiser left. -/
def ready (deps : OrdMap IrFunctionId (Finset Nat)) (remaining : List IrFunctionId)
    (done : List Nat) (id : IrFunctionId) : Bool :=
  decide (∀ file ∈ (deps.get? id).getD ∅, file ∈ done ∨ ∀ other ∈ remaining, fileOf other ≠ file)

/-- Kahn's algorithm, always taking the earliest ready initialiser, or the first on a cycle. -/
def drain (deps : OrdMap IrFunctionId (Finset Nat)) :
    Nat → List IrFunctionId → List Nat → Option (List IrFunctionId)
  | _, [], _ => some []
  | 0, _ :: _, _ => none
  | count + 1, head :: tail, done => do
      let remaining := head :: tail
      let pick := (remaining.findIdx? (ready deps remaining done)).getD 0
      let id ← remaining[pick]?
      let left := remaining.eraseIdx pick
      let done := if left.any (fileOf · = fileOf id) then done else fileOf id :: done
      let later ← drain deps count left done
      pure (id :: later)

namespace MergedModule

def dependencies (module : MergedModule) (inits : List IrFunctionId) (init : IrFunctionId) :
    Option (IrFunctionId × Finset Nat) := do
  let reached ← module.reachedFiles init
  pure (init, reached.filter fun file => file ≠ fileOf init ∧ file ∈ inits.map fileOf)

def orderedInits (module : MergedModule) (name : String) : Option (List IrFunctionId) :=
  let inits := module.named name
  if inits.length < 2 ∨ name ≠ "__init__" then some inits
  else do
    let deps ← inits.mapM (module.dependencies inits)
    drain (OrdMap.ofList deps) inits.length inits []

end MergedModule

end Rayzor.Inits
