import Rayzor.Library.Interleaving

/-!
Contract: the size-class pool for small heap objects, and the allocator it falls back to.

Owns: size classes and chunks; the three atomics of the region and who publishes them; the
free lists of each thread; the steps of `rayzor_object_alloc` and `rayzor_object_free`, one
atomic access or one thread-local section each; and what the pool guarantees (`Safe`).

Does not own: the contents of blocks (the free lists are lists here, where the source links
them through the blocks), the scribbling and counting that tests ask for, and targets
without `mmap`, on which every request falls back.
-/

namespace Rayzor.Pool

open Library.Interleaving

def chunkSize : Nat := 2 ^ 20
def maxPooled : Nat := 512
def granule : Nat := 16
def numClasses : Nat := maxPooled / granule
def regionSize : Nat := 8 * 2 ^ 30
def chunkDataOffset : Nat := 64

/-- What a machine word can hold. -/
def wordSize : Nat := 2 ^ 64

/-- `usize::MAX`, for a region that could not be reserved -/
def refused : Nat := wordSize - 1

def classOf (size : Nat) : Option Nat :=
  if size = 0 ∨ maxPooled < size then none else some ((size + (granule - 1)) / granule - 1)

def blockSize (classIndex : Nat) : Nat := (classIndex + 1) * granule

def firstChunk (address : Nat) : Nat := (address + (chunkSize - 1)) / chunkSize * chunkSize

def chunkOf (address : Nat) : Nat := address - address % chunkSize

structure ClassState where
  free : List Nat
  next : Nat
  limit : Nat

/-- A block as its user sees it, with where it came from: a class of the pool, or the
fallback allocator. -/
structure Block where
  address : Nat
  requested : Nat
  size : Nat
  pooled : Option Nat
deriving DecidableEq, Repr

def Block.apartFrom (block : Block) (start size : Nat) : Prop :=
  block.address + block.size ≤ start ∨ start + size ≤ block.address

/-- The process: the atomics, the headers of chunks, the classes of each thread, the
reservations, and the blocks that the fallback allocator has out. `published` records that
`REGION_NEXT` has been stored, and `live` the blocks that users hold. -/
structure Heap (Agent : Type) where
  regionBase : Nat
  regionNext : Nat
  regionEnd : Nat
  published : Bool
  header : Nat → Option Nat
  classes : Agent → Nat → ClassState
  mapped : Set Nat
  fallback : Set Block
  live : Set Block

inductive Phase where
  | resting
  -- `rayzor_object_alloc`
  | choosing (requested classIndex : Nat)
  | fallingBack (requested size : Nat)
  -- `ensure_region`
  | loadingBase (requested classIndex : Nat)
  | mapping (requested classIndex : Nat)
  | refusing (requested classIndex : Nat)
  | claiming (requested classIndex address : Nat)
  | storingNext (requested classIndex address : Nat)
  | storingEnd (requested classIndex address : Nat)
  | unmapping (requested classIndex address : Nat)
  | reloadingBase (requested classIndex : Nat)
  -- `new_chunk`
  | fetching (requested classIndex : Nat)
  | fetched (requested classIndex chunk : Nat) (published : Bool)
  | carving (requested classIndex chunk : Nat)
  -- `rayzor_object_free`
  | freeing (block : Block)
  | measuring (block : Block)
  | pooling (block : Block)
  | returning (block : Block)
deriving DecidableEq, Repr

variable {Agent : Type} [DecidableEq Agent]

namespace Heap

/-- A block goes to its user. -/
def give (heap : Heap Agent) (block : Block) : Heap Agent :=
  { heap with live := insert block heap.live }

/-- A thread's class changes. -/
def setClass (heap : Heap Agent) (agent : Agent) (classIndex : Nat) (state : ClassState) :
    Heap Agent :=
  { heap with
    classes := Function.update heap.classes agent
      (Function.update (heap.classes agent) classIndex state) }

end Heap

/-- The steps of a thread. -/
inductive Acts : Protocol Agent (Heap Agent) Phase
  -- `rayzor_object_alloc`; the second where the pool is off or has no class for the size
  | requestPooled {agent heap requested classIndex} : classOf requested = some classIndex →
      Acts agent heap .resting heap (.choosing requested classIndex)
  | requestOther {agent heap} (requested : Nat) :
      Acts agent heap .resting heap (.fallingBack requested (max requested 1))
  | pop {agent heap requested classIndex address rest} :
      (heap.classes agent classIndex).free = address :: rest →
      Acts agent heap (.choosing requested classIndex)
        ((heap.setClass agent classIndex
          { heap.classes agent classIndex with free := rest }).give
            ⟨address, requested, blockSize classIndex, some classIndex⟩) .resting
  | bump {agent heap requested classIndex} : (heap.classes agent classIndex).free = [] →
      (heap.classes agent classIndex).next + blockSize classIndex ≤
        (heap.classes agent classIndex).limit →
      Acts agent heap (.choosing requested classIndex)
        ((heap.setClass agent classIndex
          { heap.classes agent classIndex with
            next := (heap.classes agent classIndex).next + blockSize classIndex }).give
              ⟨(heap.classes agent classIndex).next, requested, blockSize classIndex,
                some classIndex⟩) .resting
  | needChunk {agent heap requested classIndex} : (heap.classes agent classIndex).free = [] →
      (heap.classes agent classIndex).limit <
        (heap.classes agent classIndex).next + blockSize classIndex →
      Acts agent heap (.choosing requested classIndex) heap (.loadingBase requested classIndex)
  | malloc {agent heap requested size} (address : Nat) : address ≠ 0 → address % granule = 0 →
      (∀ block ∈ heap.fallback, block.apartFrom address size) →
      (∀ start ∈ heap.mapped, start + regionSize ≤ address ∨ address + size ≤ start) →
      Acts agent heap (.fallingBack requested size)
        { heap.give ⟨address, requested, size, none⟩ with
          fallback := insert ⟨address, requested, size, none⟩ heap.fallback } .resting
  | mallocFails {agent heap requested size} :
      Acts agent heap (.fallingBack requested size) heap .resting
  -- `ensure_region`
  | foundRegion {agent heap requested classIndex} : heap.regionBase ≠ 0 →
      heap.regionBase ≠ refused →
      Acts agent heap (.loadingBase requested classIndex) heap (.fetching requested classIndex)
  | foundRefused {agent heap requested classIndex} : heap.regionBase = refused →
      Acts agent heap (.loadingBase requested classIndex) heap
        (.fallingBack requested (blockSize classIndex))
  | foundNone {agent heap requested classIndex} : heap.regionBase = 0 →
      Acts agent heap (.loadingBase requested classIndex) heap (.mapping requested classIndex)
  | map {agent heap requested classIndex} (address : Nat) : 0 < address →
      address + regionSize < wordSize →
      (∀ block ∈ heap.fallback, block.apartFrom address regionSize) →
      (∀ start ∈ heap.mapped, start + regionSize ≤ address ∨ address + regionSize ≤ start) →
      Acts agent heap (.mapping requested classIndex)
        { heap with mapped := insert address heap.mapped } (.claiming requested classIndex address)
  | mapFails {agent heap requested classIndex} :
      Acts agent heap (.mapping requested classIndex) heap (.refusing requested classIndex)
  | refuse {agent heap requested classIndex} :
      Acts agent heap (.refusing requested classIndex) { heap with regionBase := refused }
        (.fallingBack requested (blockSize classIndex))
  | claim {agent heap requested classIndex address} : heap.regionBase = 0 →
      Acts agent heap (.claiming requested classIndex address)
        { heap with regionBase := address } (.storingNext requested classIndex address)
  | claimFails {agent heap requested classIndex address} : heap.regionBase ≠ 0 →
      Acts agent heap (.claiming requested classIndex address) heap
        (.unmapping requested classIndex address)
  | storeNext {agent heap requested classIndex address} :
      Acts agent heap (.storingNext requested classIndex address)
        { heap with regionNext := firstChunk address, published := true }
        (.storingEnd requested classIndex address)
  | storeEnd {agent heap requested classIndex address} :
      Acts agent heap (.storingEnd requested classIndex address)
        { heap with regionEnd := address + regionSize } (.fetching requested classIndex)
  | unmap {agent heap requested classIndex address} :
      Acts agent heap (.unmapping requested classIndex address)
        { heap with mapped := heap.mapped \ {address} } (.reloadingBase requested classIndex)
  | reloaded {agent heap requested classIndex} : heap.regionBase ≠ refused →
      Acts agent heap (.reloadingBase requested classIndex) heap (.fetching requested classIndex)
  | reloadedRefused {agent heap requested classIndex} : heap.regionBase = refused →
      Acts agent heap (.reloadingBase requested classIndex) heap
        (.fallingBack requested (blockSize classIndex))
  -- `new_chunk`
  | fetch {agent heap requested classIndex} :
      Acts agent heap (.fetching requested classIndex)
        { heap with regionNext := (heap.regionNext + chunkSize) % wordSize }
        (.fetched requested classIndex heap.regionNext heap.published)
  | exhausted {agent heap requested classIndex chunk published} :
      heap.regionEnd < (chunk + chunkSize) % wordSize →
      Acts agent heap (.fetched requested classIndex chunk published) heap
        (.fallingBack requested (blockSize classIndex))
  | fits {agent heap requested classIndex chunk published} :
      (chunk + chunkSize) % wordSize ≤ heap.regionEnd →
      Acts agent heap (.fetched requested classIndex chunk published) heap
        (.carving requested classIndex chunk)
  | carve {agent heap requested classIndex chunk} :
      Acts agent heap (.carving requested classIndex chunk)
        ((({ heap with
          header := Function.update heap.header chunk (some classIndex) }).setClass agent
            classIndex
            { heap.classes agent classIndex with
              next := chunk + chunkDataOffset + blockSize classIndex
              limit := chunk + chunkSize }).give
              ⟨chunk + chunkDataOffset, requested, blockSize classIndex, some classIndex⟩) .resting
  -- `rayzor_object_free`, of a block that its user holds
  | free {agent heap} (block : Block) : block ∈ heap.live →
      Acts agent heap .resting { heap with live := heap.live \ {block} } (.freeing block)
  | noRegion {agent heap block} :
      heap.regionBase = 0 ∨ heap.regionBase = refused ∨ block.address < heap.regionBase →
      Acts agent heap (.freeing block) heap (.returning block)
  | above {agent heap block} : heap.regionBase ≠ 0 → heap.regionBase ≠ refused →
      heap.regionBase ≤ block.address → Acts agent heap (.freeing block) heap (.measuring block)
  | inside {agent heap block} : block.address < heap.regionEnd →
      Acts agent heap (.measuring block) heap (.pooling block)
  | beyond {agent heap block} : heap.regionEnd ≤ block.address →
      Acts agent heap (.measuring block) heap (.returning block)
  | pool {agent heap block classIndex} : heap.header (chunkOf block.address) = some classIndex →
      classIndex < numClasses →
      Acts agent heap (.pooling block)
        (heap.setClass agent classIndex
          { heap.classes agent classIndex with
            free := block.address :: (heap.classes agent classIndex).free }) .resting
  | foreign {agent heap block} :
      (∀ classIndex < numClasses, heap.header (chunkOf block.address) ≠ some classIndex) →
      Acts agent heap (.pooling block) heap .resting
  -- `libc::free`
  | giveBack {agent heap block} :
      Acts agent heap (.returning block) { heap with fallback := heap.fallback \ {block} } .resting

/-- Nothing reserved, and nobody at work. -/
def initial : Config Agent (Heap Agent) Phase :=
  ⟨⟨0, 0, 0, false, fun _ => none, fun _ _ => ⟨[], 0, 0⟩, ∅, ∅, ∅⟩, fun _ => .resting⟩

/-- A block of the pool lies in one chunk of the region, past its header, and its size and
the header are those of the class that it was allocated from. -/
structure InChunk (heap : Heap Agent) (block : Block) (classIndex : Nat) : Prop where
  isClass : classOf block.requested = some classIndex
  size : block.size = blockSize classIndex
  header : heap.header (chunkOf block.address) = some classIndex
  regionStart : heap.regionBase ≤ chunkOf block.address
  regionEnd : chunkOf block.address + chunkSize ≤ heap.regionBase + regionSize
  pastHeader : chunkOf block.address + chunkDataOffset ≤ block.address
  fits : block.address + block.size ≤ chunkOf block.address + chunkSize

structure Safe (config : Config Agent (Heap Agent) Phase) : Prop where
  placed : ∀ block ∈ config.shared.live,
    (block.pooled = none ∧ block ∈ config.shared.fallback) ∨
      ∃ classIndex, block.pooled = some classIndex ∧ InChunk config.shared block classIndex
  large : ∀ block ∈ config.shared.live, block.requested ≤ block.size
  aligned : ∀ block ∈ config.shared.live, block.address % granule = 0
  apart : ∀ block ∈ config.shared.live, ∀ other ∈ config.shared.live, block ≠ other →
    block.apartFrom other.address other.size
  /-- No address is twice on a free list, on two of them, or on one and in use. -/
  listedOnce : ∀ agent classIndex, (config.shared.classes agent classIndex).free.Nodup
  listedApart : ∀ agent classIndex other otherIndex address,
    address ∈ (config.shared.classes agent classIndex).free →
    address ∈ (config.shared.classes other otherIndex).free →
      agent = other ∧ classIndex = otherIndex
  listedDead : ∀ agent classIndex, ∀ block ∈ config.shared.live,
    block.address ∉ (config.shared.classes agent classIndex).free
  /-- The fallback allocator gets back what it gave, and the pool the rest. -/
  returned : ∀ agent block, config.phase agent = .returning block →
    block.pooled = none ∧ block ∈ config.shared.fallback
  kept : ∀ agent block, config.phase agent = .pooling block → ∃ classIndex,
    block.pooled = some classIndex ∧ InChunk config.shared block classIndex

end Rayzor.Pool
