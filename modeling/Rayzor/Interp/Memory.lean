import Rayzor.Interp.Words

/-!
Contract: the state a running function shares with everything outside it, and
the runtime that answers for what lies outside.

Owns: byte memory with typed reads and writes, globals, the trace of what a run
has done, and the interface of the runtime (`Host`).
-/

namespace Rayzor.Interp

open Ir

abbrev Memory := BitVec 64 → BitVec 8

def Mt.bytes (mt : Mt) : Nat := mt.bits / 8

def readBytes (memory : Memory) (address : BitVec 64) : Nat → BitVec 64
  | 0 => 0
  | count + 1 => (readBytes memory (address + 1) count <<< 8) ||| (memory address).setWidth 64

def writeBytes (memory : Memory) (address : BitVec 64) (bits : BitVec 64) (count : Nat) : Memory :=
  fun at_ =>
    let offset := (at_ - address).toNat
    if offset < count then (bits >>> (8 * offset)).setWidth 8 else memory at_

def copyBytes (memory : Memory) (dest src : BitVec 64) (count : Nat) : Memory :=
  fun at_ => if (at_ - dest).toNat < count then memory (src + (at_ - dest)) else memory at_

def fillBytes (memory : Memory) (dest : BitVec 64) (byte : BitVec 8) (count : Nat) : Memory :=
  fun at_ => if (at_ - dest).toNat < count then byte else memory at_

/-- What an observer outside the function sees it do. -/
inductive Event where
  | store (address : BitVec 64) (mt : Mt) (bits : BitVec 64)
  | storeGlobal (globalId : IrGlobalId) (bits : BitVec 64)
  | copy (dest src : BitVec 64) (count : Nat)
  | fill (dest : BitVec 64) (byte : BitVec 8) (count : Nat)
  | atomic (address : BitVec 64) (mt : Mt) (bits : BitVec 64)
  | call (func : IrFunctionId) (args : List (BitVec 64 × Mt))
  | callIndirect (code env : BitVec 64) (args : List (BitVec 64 × Mt))
  | free (address : BitVec 64)
  deriving DecidableEq

/-- Memory and the runtime's own state, which is all the allocator works on. -/
structure Heap (E : Type) where
  memory : Memory
  ext : E

/-- The part of the world a callee works on. -/
structure Core (E : Type) extends Heap E where
  globals : IrGlobalId → BitVec 64

/-- The trace is newest first. -/
structure World (E : Type) extends Core E where
  trace : List Event

namespace World

variable {E : Type}

def record (world : World E) (event : Event) : World E :=
  { world with trace := event :: world.trace }

def withMemory (world : World E) (memory : Memory) : World E := { world with memory }

def withHeap (world : World E) (heap : Heap E) : World E :=
  { world with memory := heap.memory, ext := heap.ext }

def withCore (world : World E) (core : Core E) : World E :=
  { memory := core.memory, globals := core.globals, ext := core.ext, trace := world.trace }

end World

inductive MathKind where
  | sqrt
  | abs
  | floor
  | ceil
  | round
  deriving DecidableEq

/-- The runtime, the allocator and every callee that is not run in a frame of
the model. A callee may change the core, and may fault. -/
structure Host (E : Type) where
  call : IrFunctionId → List (BitVec 64 × Mt) → Option (BitVec 64) → Core E →
    Except Fault (BitVec 64) × Core E
  callIndirect : BitVec 64 → BitVec 64 → List (BitVec 64 × Mt) → Core E →
    Except Fault (BitVec 64) × Core E
  /-- Zero when there is no memory left. -/
  malloc : Nat → Heap E → BitVec 64 × Heap E
  free : BitVec 64 → Heap E → Heap E
  stringLiteral : String → Heap E → BitVec 64 × Heap E
  functionAddress : IrFunctionId → Except Fault (BitVec 64)
  /-- Whether the runtime has a symbol of this name. -/
  hasSymbol : String → Bool
  math : MathKind → Mt → BitVec 64 → BitVec 64

/-- A runtime that answers every call with zero and has no memory to give. -/
def Host.idle : Host Unit where
  call _ _ _ core := (.ok 0, core)
  callIndirect _ _ _ core := (.ok 0, core)
  malloc _ heap := (0, heap)
  free _ heap := heap
  stringLiteral _ heap := (0, heap)
  functionAddress _ := .ok 0
  hasSymbol _ := false
  math _ _ bits := bits

/-- Nothing stored and nothing done yet. -/
def World.blank : World Unit where
  memory _ := 0
  ext := ()
  globals _ := 0
  trace := []

/-- A computation on the world, which a fault leaves as it stands. -/
abbrev Exec (E : Type) (α : Type) := Except (Fault × World E) α

variable {E : Type}

/-- A computation that does not touch the world. -/
def lift {α : Type} (world : World E) (result : Except Fault α) : Exec E α :=
  match result with
  | .ok value => .ok value
  | .error fault => .error (fault, world)

@[simp] theorem lift_ok {α : Type} (world : World E) (value : α) :
    lift world (.ok value) = .ok value := rfl

@[simp] theorem lift_error {α : Type} (world : World E) (fault : Fault) :
    lift world (.error fault : Except Fault α) = .error (fault, world) := rfl

/-- Addresses below this fault. -/
def nullPage : Nat := 4096

def read (memory : Memory) (address : BitVec 64) (mt : Mt) : Except Fault (BitVec 64) :=
  if address.toNat < nullPage then .error (.nullRead address)
  else if mt = .v128 then .error .vectorMemory
  else .ok (readBytes memory address mt.bytes)

/-- A write, without a mark in the trace. -/
def write (memory : Memory) (address : BitVec 64) (mt : Mt) (bits : BitVec 64) :
    Except Fault Memory :=
  if address.toNat < nullPage then .error (.nullWrite address)
  else if mt = .v128 then .error .vectorMemory
  else .ok (writeBytes memory address bits mt.bytes)

/-- A `Store` the program performs. -/
def store (world : World E) (address : BitVec 64) (mt : Mt) (bits : BitVec 64) :
    Exec E (World E) := do
  let memory ← lift world (write world.memory address mt bits)
  .ok ((world.withMemory memory).record (.store address mt bits))

def malloc (host : Host E) (size : Nat) (world : World E) : Exec E (BitVec 64 × World E) :=
  let (address, heap) := host.malloc size world.toHeap
  if address = 0 then .error (.outOfMemory, world.withHeap heap)
  else .ok (address, world.withHeap heap)

end Rayzor.Interp
