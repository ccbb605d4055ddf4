import Rayzor.Ir.Blocks
import Rayzor.Library.Dataflow

/-!
Contract: use-after-move checking over the control-flow graph of a function.

Owns: the events of bindings, the state of a binding with its witness, `join_into`, `transfer` and
`solve`.
-/

namespace Rayzor.Moves

open Library (Analysis OrdMap)
open Rayzor.Ir (IrBlockId IrControlFlowGraph)

abbrev SymbolId := Nat

inductive MoveEventKind where
  | bind
  | move
  | read
  deriving DecidableEq

structure SourceLocation where
  fileId : Nat
  line : Nat
  column : Nat
  byteOffset : Nat
  deriving DecidableEq

structure MoveEvent where
  block : IrBlockId
  order : Nat
  symbol : SymbolId
  kind : MoveEventKind
  location : SourceLocation
  deriving DecidableEq

/-- A binding without a state is not moved. -/
structure MovedState where
  moved : Bool
  witness : Option (Nat × SourceLocation)
  deriving DecidableEq

abbrev State := OrdMap SymbolId MovedState

structure Violation where
  symbol : SymbolId
  movedAt : SourceLocation
  usedAt : SourceLocation

def MovedState.takes (d s : MovedState) : Bool :=
  match d.witness, s.witness with
  | none, some _ => true
  | some dw, some sw => sw.1 < dw.1
  | _, none => false

def MovedState.join (d s : MovedState) : MovedState where
  moved := d.moved || s.moved
  witness := if d.takes s then s.witness else d.witness

/-- One entry of the source, and whether the target grew. -/
def joinEntry (dst : State × Bool) (entry : SymbolId × MovedState) : State × Bool :=
  if entry.2.moved = false ∧ entry.2.witness = none then dst
  else match dst.1.get? entry.1 with
    | none => (dst.1.insert entry.1 entry.2, true)
    | some d => (dst.1.insert entry.1 (d.join entry.2),
        dst.2 || (entry.2.moved && !d.moved) || d.takes entry.2)

def joinInto (dst src : State) : State × Bool :=
  src.entries.foldl joinEntry (dst, false)

def State.already (state : State) (ev : MoveEvent) : Option MovedState :=
  (state.get? ev.symbol).filter (·.moved)

/-- The state behind an event. A move keeps the earliest witness. -/
def State.after (state : State) (ev : MoveEvent) : State :=
  match ev.kind with
  | .bind => state.erase ev.symbol
  | .read => state
  | .move =>
      let witness := match (state.already ev).bind (·.witness) with
        | some prev => if prev.1 ≤ ev.order then prev else (ev.order, ev.location)
        | none => (ev.order, ev.location)
      state.insert ev.symbol ⟨true, some witness⟩

def State.prior (state : State) (ev : MoveEvent) : Option (Nat × SourceLocation) :=
  if ev.kind = .bind then none else (state.already ev).bind (·.witness)

def State.violation (state : State) (ev : MoveEvent) : Option Violation :=
  (state.prior ev).map fun prior => ⟨ev.symbol, prior.2, ev.location⟩

/-- The state behind the events of a block, and the violations on the way. -/
def transfer : List MoveEvent → State → State × List Violation
  | [], state => (state, [])
  | ev :: rest, state =>
      ((transfer rest (state.after ev)).1,
        (state.violation ev).toList ++ (transfer rest (state.after ev)).2)

def byBlock (events : List MoveEvent) : OrdMap IrBlockId (List MoveEvent) :=
  (OrdMap.group (events.map fun ev => (ev.block, ev))).mapValues fun _ group =>
    group.mergeSort fun first second => first.order ≤ second.order

def preds (cfg : IrControlFlowGraph) : OrdMap IrBlockId (List IrBlockId) :=
  OrdMap.group (cfg.edges.map fun edge => (edge.2, edge.1))

def moveflow (cfg : IrControlFlowGraph) (events : List MoveEvent) : Analysis IrBlockId State where
  entry := cfg.entryBlock
  successors id := ((cfg.getBlock id).map (·.successors)).getD []
  predecessors id := ((preds cfg).get? id).getD []
  bottom := OrdMap.empty
  join dst src := (joinInto dst src).1
  transfer id state := (transfer (((byBlock events).get? id).getD []) state).1

def Violation.upTo (first second : Violation) : Bool :=
  first.usedAt.line < second.usedAt.line ∨
    first.usedAt.line = second.usedAt.line ∧ first.usedAt.column ≤ second.usedAt.column

/-- The fixpoint, with a bound on its steps, and the reports of a second pass. -/
def solve (fuel : Nat) (cfg : IrControlFlowGraph) (events : List MoveEvent) :
    Option (List Violation) :=
  ((moveflow cfg events).run fuel ((moveflow cfg events).start cfg.blocks.keys)).map fun solving =>
    ((byBlock events).entries.flatMap fun entry =>
      if entry.1 ∈ solving.reachable then
        (transfer entry.2 ((solving.inState.get? entry.1).getD OrdMap.empty)).2
      else []).mergeSort Violation.upTo

end Rayzor.Moves
