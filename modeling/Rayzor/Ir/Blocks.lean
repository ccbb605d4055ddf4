import Rayzor.Ir.Instructions

/-!
Contract: basic blocks, control-flow graphs, functions and modules.

Owns: terminators with their successors and rewrites, phi nodes, the block map
with the operations passes use on it, and the tables a function and a module
carry that change how an instruction is read.

Does not own: labels, debug positions, symbol tables or attributes that no
modelled function reads.
-/

namespace Rayzor.Ir

open Library (OrdMap)

inductive IrTerminator where
  | branch (target : IrBlockId)
  | condBranch (condition : IrId) (trueTarget falseTarget : IrBlockId)
  | switch (value : IrId) (cases : List (BitVec 64 × IrBlockId)) (default : IrBlockId)
  | ret (value : Option IrId)
  | unreachable
  | noReturn (call : IrId)

namespace IrTerminator

def successors : IrTerminator → List IrBlockId
  | branch target => [target]
  | condBranch _ trueTarget falseTarget => [trueTarget, falseTarget]
  | switch _ cases default => cases.map Prod.snd ++ [default]
  | ret _ | unreachable | noReturn _ => []

def reads : IrTerminator → List IrId
  | condBranch condition _ _ => [condition]
  | switch value _ _ => [value]
  | ret value => value.toList
  | branch _ | unreachable | noReturn _ => []

def renameUses (replace : IrId → IrId) : IrTerminator → IrTerminator
  | condBranch condition trueTarget falseTarget =>
      condBranch (replace condition) trueTarget falseTarget
  | switch value cases default => switch (replace value) cases default
  | ret value => ret (value.map replace)
  | noReturn call => noReturn (replace call)
  | other => other

def replaceUses (replacements : OrdMap IrId IrId) (term : IrTerminator) : IrTerminator :=
  term.renameUses fun id => (replacements.get? id).getD id

@[simp] theorem successors_renameUses (replace : IrId → IrId) (term : IrTerminator) :
    (term.renameUses replace).successors = term.successors := by
  cases term <;> rfl

@[simp] theorem renameUses_id (term : IrTerminator) : term.renameUses (fun reg => reg) = term := by
  cases term <;> simp [renameUses]

theorem renameUses_comp (first second : IrId → IrId) (term : IrTerminator) :
    (term.renameUses first).renameUses second = term.renameUses (second ∘ first) := by
  cases term <;> simp [renameUses]

@[simp] theorem reads_renameUses (replace : IrId → IrId) (term : IrTerminator) :
    (term.renameUses replace).reads = term.reads.map replace := by
  cases term with
  | ret value => cases value <;> rfl
  | _ => rfl

end IrTerminator

structure IrPhiNode where
  dest : IrId
  incoming : List (IrBlockId × IrId)
  ty : IrType

def IrPhiNode.valueFrom (phi : IrPhiNode) (source : IrBlockId) : Option IrId :=
  (phi.incoming.find? fun entry => entry.1 == source).map Prod.snd

structure IrBasicBlock where
  instructions : List IrInstruction := []
  terminator : IrTerminator := .unreachable
  phiNodes : List IrPhiNode := []
  predecessors : List IrBlockId := []

namespace IrBasicBlock

def successors (block : IrBasicBlock) : List IrBlockId := block.terminator.successors

/-- Everything the block assigns, phis first. -/
def definitions (block : IrBasicBlock) : List IrId :=
  block.phiNodes.map (·.dest) ++ block.instructions.filterMap (·.writes)

end IrBasicBlock

structure IrControlFlowGraph where
  blocks : OrdMap IrBlockId IrBasicBlock
  entryBlock : IrBlockId
  nextBlockId : Nat

namespace IrControlFlowGraph

def getBlock (cfg : IrControlFlowGraph) (id : IrBlockId) : Option IrBasicBlock :=
  cfg.blocks.get? id

def modifyBlock (cfg : IrControlFlowGraph) (id : IrBlockId)
    (update : IrBasicBlock → IrBasicBlock) : IrControlFlowGraph :=
  { cfg with blocks := cfg.blocks.modify id update }

def addPredecessor (source : IrBlockId) (block : IrBasicBlock) : IrBasicBlock :=
  if source ∈ block.predecessors then block
  else { block with predecessors := block.predecessors ++ [source] }

def connectBlocks (cfg : IrControlFlowGraph) (source target : IrBlockId) : IrControlFlowGraph :=
  cfg.modifyBlock target (addPredecessor source)

def edges (cfg : IrControlFlowGraph) : List (IrBlockId × IrBlockId) :=
  cfg.blocks.entries.flatMap fun entry => entry.2.successors.map fun target => (entry.1, target)

def recomputePredecessors (cfg : IrControlFlowGraph) : IrControlFlowGraph :=
  let cleared : IrControlFlowGraph :=
    { cfg with blocks := cfg.blocks.mapValues fun _ block => { block with predecessors := [] } }
  cfg.edges.foldl (fun acc edge => acc.connectBlocks edge.1 edge.2) cleared

@[simp] theorem getBlock_modifyBlock (cfg : IrControlFlowGraph) (id candidate : IrBlockId)
    (update : IrBasicBlock → IrBasicBlock) :
    (cfg.modifyBlock id update).getBlock candidate =
      if candidate = id then (cfg.getBlock candidate).map update else cfg.getBlock candidate :=
  OrdMap.get?_modify cfg.blocks id candidate update

end IrControlFlowGraph

inductive CallingConvention where
  | haxe
  | c
  | fast
  | native
  deriving DecidableEq

structure IrParameter where
  name : String
  ty : IrType
  reg : IrId

structure IrFunctionSignature where
  parameters : List IrParameter
  returnType : IrType
  callingConvention : CallingConvention
  typeParams : List String
  usesSret : Bool

structure IrLocal where
  name : String
  ty : IrType

structure IrFunction where
  name : String
  signature : IrFunctionSignature
  cfg : IrControlFlowGraph
  locals : OrdMap IrId IrLocal
  registerTypes : OrdMap IrId IrType
  externalLinkage : Bool
  nextRegId : Nat
  typeParamTagFixups : List (IrId × String)
  typeParamMetadataFixups : List (IrId × String)

namespace IrFunction

def getBlock (function : IrFunction) (id : IrBlockId) : Option IrBasicBlock :=
  function.cfg.getBlock id

/-- A declaration: the body lives elsewhere. -/
def isExtern (function : IrFunction) : Bool := function.cfg.blocks.entries.isEmpty

end IrFunction

structure IrExternFunction where
  name : String
  signature : IrFunctionSignature

structure IrModule where
  functions : OrdMap IrFunctionId IrFunction
  externFunctions : OrdMap IrFunctionId IrExternFunction

end Rayzor.Ir
