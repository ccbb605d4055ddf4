import Rayzor.Osr.Layout

/-!
Contract: the function that resumes another one at a loop header.

Owns: the prologue that loads the frame, `buildVariant`, and `carryRedefined`
with its rejections.

Does not own: what the variant does when it runs. Function ids and qualified
names are left out: nothing here reads them.
-/

namespace Rayzor.Osr

open Ir Library Analysis

/-- How one slot is loaded: the registers of its offset, its address and its
value, and for a value the variant defines again the block that does and the
phi that merges the two. -/
structure SlotLoad where
  slot : OsrSlot
  place : Nat
  offset : IrId
  addr : IrId
  dest : IrId
  merged : Option (IrBlockId × IrId)

/-- Load one slot, with the first register that is still free after it. -/
def loadSlot (redefinedIn : IrId → Option IrBlockId) (next : IrId) (slot : OsrSlot)
    (place : Nat) : SlotLoad × IrId :=
  match slot.param with
  | .headerPhi _ =>
      ({ slot, place, offset := next, addr := next + 1, dest := next + 2, merged := none },
        next + 3)
  | .live reg =>
      match redefinedIn reg with
      | some block =>
          ({ slot, place, offset := next, addr := next + 1, dest := next + 2,
             merged := some (block, next + 3) }, next + 4)
      | none =>
          ({ slot, place, offset := next, addr := next + 1, dest := reg, merged := none },
            next + 2)

def loadSlots (redefinedIn : IrId → Option IrBlockId) :
    IrId → List (OsrSlot × Nat) → List SlotLoad × IrId
  | next, [] => ([], next)
  | next, (slot, place) :: rest =>
      let first := loadSlot redefinedIn next slot place
      let others := loadSlots redefinedIn first.2 rest
      (first.1 :: others.1, others.2)

namespace SlotLoad

def code (framePtr : IrId) (load : SlotLoad) : List IrInstruction :=
  [.const load.offset (.i64 (BitVec.ofNat 64 load.place)),
    .ptrAdd load.addr framePtr load.offset (.ptr .i8),
    .load load.dest load.addr load.slot.ty]

def types (load : SlotLoad) : List (IrId × IrType) :=
  load.merged.toList.map (fun merged => (merged.2, load.slot.ty)) ++
    [(load.offset, .i64), (load.addr, .ptr .i8), (load.dest, load.slot.ty)]

def phiValue (load : SlotLoad) : Option IrId :=
  match load.slot.param with
  | .headerPhi _ => some load.dest
  | .live _ => none

end SlotLoad

/-- A value the frame hands over that the variant also defines: what arrives,
the block that defines it again, and the phi merging the two. -/
structure Redefined where
  reg : IrId
  arrived : IrId
  block : IrBlockId
  ty : IrType
  phi : IrId

def SlotLoad.redefined (load : SlotLoad) : Option Redefined :=
  load.merged.map fun merged =>
    { reg := load.slot.param.reg, arrived := load.dest, block := merged.1, ty := load.slot.ty,
      phi := merged.2 }

/-- Only edges from inside the variant can fire. -/
def keepEdgesFrom (region : List IrBlockId) (block : IrBasicBlock) : IrBasicBlock :=
  { block with
    phiNodes := block.phiNodes.map fun phi =>
      { phi with incoming := phi.incoming.filter fun entry => region.contains entry.1 } }

/-- The header's phis take what the prologue loaded on the new edge. -/
def enterFrom (entry : IrBlockId) (values : List IrId) (block : IrBasicBlock) : IrBasicBlock :=
  { block with
    phiNodes := block.phiNodes.zipWith
      (fun phi value => { phi with incoming := phi.incoming ++ [(entry, value)] }) values }

/-- The loads of a layout, and the first register free after them. The frame
pointer comes first. -/
def layoutLoads (function : IrFunction) (layout : OsrLayout) : List SlotLoad × IrId :=
  let region := blocksReachableFrom function layout.header
  let defs := definitionBlocks function
  loadSlots (fun reg => (defs.get? reg).filter fun block => region.contains block)
    (function.nextRegId + 1) (layout.slots.zip layout.frame.offsets)

def framePtr (function : IrFunction) : IrId := function.nextRegId

def osrEntry (function : IrFunction) (layout : OsrLayout) : IrBasicBlock where
  instructions := (layoutLoads function layout).1.flatMap (SlotLoad.code (framePtr function))
  terminator := .branch layout.header

/-- The variant before values it defines again are merged. -/
def enteredVariant (function : IrFunction) (layout : OsrLayout) : IrFunction :=
  let header := layout.header
  let region := blocksReachableFrom function header
  let entry := function.cfg.nextBlockId
  let loads := layoutLoads function layout
  let kept := (function.cfg.blocks.filter fun id _ => region.contains id).mapValues
    fun _ block => keepEdgesFrom region block
  let entered := kept.modify header (enterFrom entry (loads.1.filterMap (·.phiValue)))
  { function with
    name := function.name ++ "$osr" ++ toString header
    signature :=
      { function.signature with
        parameters := [{ name := "osr_frame", ty := .ptr .i8, reg := framePtr function }]
        callingConvention := .c }
    registerTypes := (loads.1.flatMap (·.types)).foldl
      (fun types entry => types.insert entry.1 entry.2)
      (function.registerTypes.insert (framePtr function) (.ptr .i8))
    nextRegId := loads.2
    cfg := IrControlFlowGraph.recomputePredecessors
      { blocks := entered.insert entry (osrEntry function layout)
        entryBlock := entry
        nextBlockId := entry + 1 } }

/-- Blocks the definition reaches without passing the header, where the merging
phi has not seen it yet. -/
def unmerged (variant : IrFunction) (header block : IrBlockId) : List IrBlockId :=
  found variant (fun id => (successorsOf variant.cfg id).filter (· != header))
    ((successorsOf variant.cfg block).filter (· != header))

/-- Where values are carried to: operands are rewritten one value at a time, and
none of the rewrites changes an edge. -/
structure Carrier where
  variant : IrFunction
  header : IrBlockId
  entry : IrBlockId
  domtree : DominatorTree

/-- The register that holds a value in a block, if it is the same on all paths. -/
def Carrier.reaching (carrier : Carrier) (value : Redefined) (at_ : IrBlockId) : Option IrId :=
  if carrier.domtree.dominates value.block at_ then some value.reg
  else if !(unmerged carrier.variant carrier.header value.block).contains at_ then some value.phi
  else none

def Carrier.reachingOrReject (carrier : Carrier) (value : Redefined) (at_ : IrBlockId) :
    Except OsrReject IrId :=
  match carrier.reaching value at_ with
  | some reg => .ok reg
  | none => .error .regionHasExternalEntry

def Carrier.mergedIncoming (carrier : Carrier) (value : Redefined) :
    Except OsrReject (List (IrBlockId × IrId)) := do
  let preds := (predecessorsOf carrier.variant.cfg carrier.header).filter (· != carrier.entry)
  let incoming ← preds.mapM fun pred => (carrier.reachingOrReject value pred).map (pred, ·)
  .ok ((carrier.entry, value.arrived) :: incoming)

def Carrier.carryPhi (carrier : Carrier) (value : Redefined) (phi : IrPhiNode) :
    Except OsrReject IrPhiNode := do
  let incoming ← phi.incoming.mapM fun entry =>
    if entry.2 = value.reg then (carrier.reachingOrReject value entry.1).map (entry.1, ·)
    else .ok entry
  .ok { phi with incoming }

def reads (block : IrBasicBlock) (reg : IrId) : Bool :=
  block.instructions.any (fun inst => inst.uses.contains reg) ||
    (terminatorUses block.terminator).contains reg

def replaceUses (replacements : OrdMap IrId IrId) (block : IrBasicBlock) : IrBasicBlock :=
  { block with
    instructions := block.instructions.map (·.replaceUses replacements)
    terminator := block.terminator.replaceUses replacements }

def Carrier.carryBlock (carrier : Carrier) (value : Redefined) (id : IrBlockId)
    (block : IrBasicBlock) : Except OsrReject IrBasicBlock :=
  if id = carrier.entry then .ok block
  else do
    let phiNodes ← block.phiNodes.mapM (carrier.carryPhi value)
    let block := { block with phiNodes }
    if id = value.block ∨ reads block value.reg = false then .ok block
    else do
      let replacement ← carrier.reachingOrReject value id
      if replacement = value.reg then .ok block
      else
        let rewritten := replaceUses (OrdMap.empty.insert value.reg replacement) block
        -- an operand the rewrite does not reach would read the old register
        if reads rewritten value.reg then .error .regionHasExternalEntry
        else .ok rewritten

def Carrier.carryValue (carrier : Carrier) (variant : IrFunction) (value : Redefined) :
    Except OsrReject IrFunction := do
  let incoming ← carrier.mergedIncoming value
  let blocks ← variant.cfg.blocks.mapValuesM (carrier.carryBlock value)
  let phi : IrPhiNode := { dest := value.phi, incoming, ty := value.ty }
  .ok { variant with
    cfg := { variant.cfg with
      blocks := blocks.modify carrier.header fun block =>
        { block with phiNodes := block.phiNodes ++ [phi] } } }

/-- Give each value a phi at the header merging what the frame held with the
variant's own definition, and point every use at whichever of the two reaches
it. A use both can reach is refused. -/
def carryRedefined (variant : IrFunction) (header entry : IrBlockId) (merged : List Redefined) :
    Except OsrReject IrFunction :=
  merged.foldlM
    (Carrier.carryValue { variant, header, entry, domtree := DominatorTree.compute variant })
    variant

structure OsrVariant where
  function : IrFunction
  site : IrBlockId
  layout : OsrLayout

def buildVariant (function : IrFunction) (header : IrBlockId) (layout : OsrLayout) :
    Except OsrReject OsrVariant := do
  let redefined := (layoutLoads function layout).1.filterMap (·.redefined)
  let carried ← carryRedefined (enteredVariant function layout) header function.cfg.nextBlockId
    redefined
  .ok { function := carried, site := header, layout }

def buildOsrVariant (function : IrFunction) (header : IrBlockId) : Except OsrReject OsrVariant := do
  buildVariant function header (← osrLayout function header)

def buildResumeVariant (function : IrFunction) (header : IrBlockId) :
    Except OsrReject OsrVariant := do
  buildVariant function header (← resumeLayout function header)

end Rayzor.Osr
