import Rayzor.Pool.Chunks

/-!
Contract: the blocks of the pool, in use, on free lists and on their way between them.
-/

namespace Rayzor.Pool

open Library.Interleaving

variable {Agent : Type} [DecidableEq Agent]

structure Placed (heap : Heap Agent) (chunk classIndex address : Nat) : Prop where
  header : heap.header chunk = some classIndex
  position : ∃ count, address = chunk + chunkDataOffset + count * blockSize classIndex
  fits : address + blockSize classIndex ≤ chunk + chunkSize

omit [DecidableEq Agent] in
theorem Placed.bounds {heap : Heap Agent} {chunk classIndex address : Nat}
    (placed : Placed heap chunk classIndex address) :
    chunk + chunkDataOffset ≤ address ∧ address < chunk + chunkSize := by
  obtain ⟨count, position⟩ := placed.position
  have positive := blockSize_positive classIndex
  have fits := placed.fits
  constructor
  · rw [position]
    exact Nat.le_add_right _ _
  · omega

omit [DecidableEq Agent] in
theorem Placed.chunkOf {heap : Heap Agent} {chunk classIndex address : Nat}
    (placed : Placed heap chunk classIndex address) (aligned : chunk % chunkSize = 0) :
    chunkOf address = chunk := by
  have bounds := placed.bounds
  simp only [Pool.chunkOf, chunkSize, chunkDataOffset] at aligned bounds ⊢
  omega

omit [DecidableEq Agent] in
theorem Placed.aligned {heap : Heap Agent} {chunk classIndex address : Nat}
    (placed : Placed heap chunk classIndex address) (aligned : chunk % chunkSize = 0) :
    address % granule = 0 := by
  obtain ⟨count, position⟩ := placed.position
  have inner : (count * blockSize classIndex) % granule = 0 := by
    rw [blockSize, ← Nat.mul_assoc]
    exact Nat.mul_mod_left _ _
  simp only [chunkSize, chunkDataOffset, granule] at aligned position inner ⊢
  omega

omit [DecidableEq Agent] in
/-- Blocks of one chunk lie one after the other, and chunks do not overlap. -/
theorem Placed.apart {heap : Heap Agent} {chunk classIndex address other otherIndex otherAddress : Nat}
    (placed : Placed heap chunk classIndex address)
    (otherPlaced : Placed heap other otherIndex otherAddress) (aligned : chunk % chunkSize = 0)
    (otherAligned : other % chunkSize = 0) (differs : address ≠ otherAddress) :
    address + blockSize classIndex ≤ otherAddress ∨
      otherAddress + blockSize otherIndex ≤ address := by
  by_cases same : chunk = other
  · subst same
    have sameIndex : classIndex = otherIndex :=
      Option.some.inj (placed.header.symm.trans otherPlaced.header)
    subst sameIndex
    obtain ⟨count, position⟩ := placed.position
    obtain ⟨otherCount, otherPosition⟩ := otherPlaced.position
    apply (Nat.lt_or_gt_of_ne fun sameCount : count = otherCount => differs (by
      rw [position, otherPosition, sameCount])).imp
    · intro before
      have steps := Nat.mul_le_mul_right (blockSize classIndex) before
      rw [Nat.succ_mul] at steps
      omega
    · intro before
      have steps := Nat.mul_le_mul_right (blockSize classIndex) before
      rw [Nat.succ_mul] at steps
      omega
  · have bounds := placed.bounds
    have otherBounds := otherPlaced.bounds
    have fits := placed.fits
    have otherFits := otherPlaced.fits
    simp only [chunkSize, chunkDataOffset] at *
    omega

def Phase.freed : Phase → Option Block
  | .freeing block | .measuring block | .pooling block | .returning block => some block
  | _ => none

/-- Who has the address of a pooled block. -/
inductive Holder (Agent : Type) where
  | user
  | list (agent : Agent) (classIndex : Nat)
  | hand (agent : Agent)

def Holds (config : Config Agent (Heap Agent) Phase) : Holder Agent → Nat → Prop
  | .user, address => ∃ block ∈ config.shared.live,
      block.pooled.isSome = true ∧ block.address = address
  | .list agent classIndex, address => address ∈ (config.shared.classes agent classIndex).free
  | .hand agent, address => ∃ block, (config.phase agent).freed = some block ∧
      block.pooled.isSome = true ∧ block.address = address

/-- What is known of a block in use, or on its way back. -/
structure Known (heap : Heap Agent) (block : Block) : Prop where
  large : block.requested ≤ block.size
  positive : 0 < block.size
  aligned : block.address % granule = 0
  fromFallback : block.pooled = none → block ∈ heap.fallback
  fromPool : ∀ classIndex, block.pooled = some classIndex →
    classOf block.requested = some classIndex ∧ block.size = blockSize classIndex ∧
      ∃ chunk, Placed heap chunk classIndex block.address

structure Blocks (config : Config Agent (Heap Agent) Phase) : Prop where
  known : ∀ block ∈ config.shared.live, Known config.shared block
  knownFreed : ∀ agent block, (config.phase agent).freed = some block → Known config.shared block
  listed : ∀ agent classIndex, ∀ address ∈ (config.shared.classes agent classIndex).free,
    ∃ chunk, Placed config.shared chunk classIndex address
  nodup : ∀ agent classIndex, (config.shared.classes agent classIndex).free.Nodup
  oneHolder : ∀ holder other address, Holds config holder address → Holds config other address →
    holder = other
  oneUser : ∀ block ∈ config.shared.live, ∀ other ∈ config.shared.live,
    block.pooled.isSome = true → other.pooled.isSome = true → block.address = other.address →
      block = other
  freedDead : ∀ agent block, (config.phase agent).freed = some block → block ∉ config.shared.live
  freedOnce : ∀ agent other block, (config.phase agent).freed = some block →
    (config.phase other).freed = some block → agent = other
  fallbackKind : ∀ block ∈ config.shared.fallback, block.pooled = none ∧ 0 < block.size
  fallbackApart : ∀ block ∈ config.shared.fallback, ∀ other ∈ config.shared.fallback,
    block ≠ other → block.apartFrom other.address other.size
  fallbackOutside : ∀ block ∈ config.shared.fallback, ∀ start ∈ config.shared.mapped,
    block.apartFrom start regionSize
  rest : ∀ agent classIndex, (config.shared.classes agent classIndex).limit ≠ 0 →
    ∃ chunk count, config.shared.header chunk = some classIndex ∧
      (config.shared.classes agent classIndex).limit = chunk + chunkSize ∧
      (config.shared.classes agent classIndex).next =
        chunk + chunkDataOffset + count * blockSize classIndex
  restFree : ∀ agent classIndex chunk holder address,
    (config.shared.classes agent classIndex).limit = chunk + chunkSize →
    Holds config holder address → Placed config.shared chunk classIndex address →
      address < (config.shared.classes agent classIndex).next
  oneRest : ∀ agent classIndex other otherIndex,
    (config.shared.classes agent classIndex).limit ≠ 0 →
    (config.shared.classes agent classIndex).limit =
      (config.shared.classes other otherIndex).limit → agent = other ∧ classIndex = otherIndex

omit [DecidableEq Agent] in
theorem blocks_initial : Blocks (initial : Config Agent (Heap Agent) Phase) where
  known := fun _ isIn => absurd isIn (Set.notMem_empty _)
  knownFreed := fun _ _ freed => nomatch freed
  listed := fun _ _ _ isIn => absurd isIn List.not_mem_nil
  nodup := fun _ _ => List.nodup_nil
  oneHolder := by
    intro holder other address holds
    cases holder with
    | user => exact absurd holds.choose_spec.1 (Set.notMem_empty _)
    | list => exact absurd holds List.not_mem_nil
    | hand => exact nomatch holds.choose_spec.1
  oneUser := fun _ isIn => absurd isIn (Set.notMem_empty _)
  freedDead := fun _ _ freed => nomatch freed
  freedOnce := fun _ _ _ freed => nomatch freed
  fallbackKind := fun _ isIn => absurd isIn (Set.notMem_empty _)
  fallbackApart := fun _ isIn => absurd isIn (Set.notMem_empty _)
  fallbackOutside := fun _ isIn => absurd isIn (Set.notMem_empty _)
  rest := fun _ _ ends => absurd rfl ends
  restFree := by
    intro agent classIndex chunk holder address _ _ placed
    exact nomatch placed.header
  oneRest := fun _ _ _ _ ends => absurd rfl ends

variable {config : Config Agent (Heap Agent) Phase} {agent : Agent} {heap : Heap Agent}
  {before phase : Phase}

omit [DecidableEq Agent] in
theorem Placed.mono {heap next : Heap Agent} {chunk classIndex address : Nat}
    (placed : Placed heap chunk classIndex address)
    (header : ∀ chunk classIndex, heap.header chunk = some classIndex →
      next.header chunk = some classIndex) : Placed next chunk classIndex address :=
  ⟨header chunk classIndex placed.header, placed.position, placed.fits⟩

omit [DecidableEq Agent] in
theorem Known.mono {heap next : Heap Agent} {block : Block} (known : Known heap block)
    (header : ∀ chunk classIndex, heap.header chunk = some classIndex →
      next.header chunk = some classIndex)
    (fallback : block ∈ heap.fallback → block ∈ next.fallback) : Known next block where
  large := known.large
  positive := known.positive
  aligned := known.aligned
  fromFallback := fun isFallback => fallback (known.fromFallback isFallback)
  fromPool := by
    intro classIndex isPooled
    obtain ⟨isClass, size, chunk, placed⟩ := known.fromPool classIndex isPooled
    exact ⟨isClass, size, chunk, placed.mono header⟩

omit [DecidableEq Agent] in
/-- Whatever is held lies in a chunk. -/
theorem Blocks.placed (blocks : Blocks config) {holder : Holder Agent} {address : Nat}
    (holds : Holds config holder address) :
    ∃ chunk classIndex, Placed config.shared chunk classIndex address := by
  have ofKnown : ∀ block, Known config.shared block → block.pooled.isSome = true →
      block.address = address → ∃ chunk classIndex, Placed config.shared chunk classIndex address := by
    intro block known isPooled same
    obtain ⟨classIndex, pooled⟩ := Option.isSome_iff_exists.mp isPooled
    obtain ⟨-, -, chunk, placed⟩ := known.fromPool classIndex pooled
    exact ⟨chunk, classIndex, same ▸ placed⟩
  cases holder with
  | user =>
      obtain ⟨block, isLive, isPooled, same⟩ := holds
      exact ofKnown block (blocks.known block isLive) isPooled same
  | list agent classIndex =>
      obtain ⟨chunk, placed⟩ := blocks.listed agent classIndex address holds
      exact ⟨chunk, classIndex, placed⟩
  | hand agent =>
      obtain ⟨block, freed, isPooled, same⟩ := holds
      exact ofKnown block (blocks.knownFreed agent block freed) isPooled same

theorem Blocks.frame (blocks : Blocks config) (stands : config.phase agent = before)
    (header : heap.header = config.shared.header) (classes : heap.classes = config.shared.classes)
    (live : heap.live = config.shared.live) (fallback : heap.fallback = config.shared.fallback)
    (outside : ∀ block ∈ config.shared.fallback, ∀ start ∈ heap.mapped,
      block.apartFrom start regionSize)
    (freed : phase.freed = none ∨ phase.freed = before.freed) :
    Blocks (config.move agent heap phase) := by
  have wasFreed : ∀ who block, ((config.move agent heap phase).phase who).freed = some block →
      (config.phase who).freed = some block := by
    intro who block isFreed
    rw [phase_move] at isFreed
    split_ifs at isFreed with same
    · rw [same, stands]
      apply freed.elim
      · intro isNone
        rw [isNone] at isFreed
        cases isFreed
      · exact fun kept => kept ▸ isFreed
    · exact isFreed
  have held : ∀ holder address, Holds (config.move agent heap phase) holder address →
      Holds config holder address := by
    intro holder address holds
    cases holder with
    | user =>
        obtain ⟨block, isLive, isPooled⟩ := holds
        rw [shared_move, live] at isLive
        exact ⟨block, isLive, isPooled⟩
    | list who classIndex =>
        change address ∈ (heap.classes who classIndex).free at holds
        rw [classes] at holds
        exact holds
    | hand who =>
        obtain ⟨block, isFreed, isPooled⟩ := holds
        exact ⟨block, wasFreed who block isFreed, isPooled⟩
  have known : ∀ block, Known config.shared block → Known heap block := fun block isKnown =>
    isKnown.mono (fun _ _ isCarved => header ▸ isCarved) (fun isFallback => fallback ▸ isFallback)
  constructor
  · exact fun block isLive => known block (blocks.known block (live ▸ isLive))
  · exact fun who block isFreed => known block (blocks.knownFreed who block (wasFreed who block isFreed))
  · intro who classIndex address isListed
    obtain ⟨chunk, placed⟩ := blocks.listed who classIndex address (classes ▸ isListed)
    exact ⟨chunk, placed.mono fun _ _ isCarved => header ▸ isCarved⟩
  · exact fun who classIndex => classes ▸ blocks.nodup who classIndex
  · exact fun holder other address holds otherHolds => blocks.oneHolder holder other address
      (held holder address holds) (held other address otherHolds)
  · exact fun block isLive other otherLive => blocks.oneUser block (live ▸ isLive) other
      (live ▸ otherLive)
  · exact fun who block isFreed isLive => blocks.freedDead who block (wasFreed who block isFreed)
      (live ▸ isLive)
  · exact fun who other block isFreed otherFreed => blocks.freedOnce who other block
      (wasFreed who block isFreed) (wasFreed other block otherFreed)
  · exact fun block isFallback => blocks.fallbackKind block (fallback ▸ isFallback)
  · exact fun block isFallback other otherFallback => blocks.fallbackApart block
      (fallback ▸ isFallback) other (fallback ▸ otherFallback)
  · exact fun block isFallback => outside block (fallback ▸ isFallback)
  · exact fun who classIndex => classes ▸ header ▸ blocks.rest who classIndex
  · intro who classIndex chunk holder address limit holds placed
    rw [shared_move, classes] at limit ⊢
    exact blocks.restFree who classIndex chunk holder address limit (held holder address holds)
      (placed.mono fun _ _ isCarved => header ▸ isCarved)
  · exact fun who classIndex other otherIndex => classes ▸ blocks.oneRest who classIndex other
      otherIndex

/-- One class of one thread among the others. -/
theorem classes_setClass (heap : Heap Agent) (agent : Agent) (classIndex : Nat)
    (state : ClassState) (who : Agent) (index : Nat) :
    (heap.setClass agent classIndex state).classes who index =
      if who = agent ∧ index = classIndex then state else heap.classes who index := by
  rw [Heap.setClass]
  by_cases same : who = agent
  · rw [same]
    by_cases sameIndex : index = classIndex
    · rw [if_pos ⟨rfl, sameIndex⟩, sameIndex]
      exact (congrFun (Function.update_self agent _ heap.classes) classIndex).trans
        (Function.update_self classIndex state (heap.classes agent))
    · rw [if_neg fun both => sameIndex both.2]
      exact (congrFun (Function.update_self agent _ heap.classes) index).trans
        (Function.update_of_ne sameIndex state (heap.classes agent))
  · rw [if_neg fun both => same both.1]
    exact congrFun (Function.update_of_ne same _ heap.classes) index

/-- A step that hands a block of a chunk to its user: from a free list, or out of the rest
of the chunk. -/
theorem Blocks.handOut (blocks : Blocks config) {classIndex : Nat} {state : ClassState}
    {block : Block} (rests : phase.freed = none)
    (classes : ∀ who index, heap.classes who index =
      if who = agent ∧ index = classIndex then state else config.shared.classes who index)
    (live : heap.live = insert block config.shared.live)
    (fallback : heap.fallback = config.shared.fallback)
    (mapped : heap.mapped = config.shared.mapped)
    (header : ∀ chunk classIndex, config.shared.header chunk = some classIndex →
      heap.header chunk = some classIndex)
    (pooled : block.pooled = some classIndex) (known : Known heap block)
    (free : state.free.Sublist (config.shared.classes agent classIndex).free)
    (isNew : block.address ∉ state.free)
    (wasHeld : ∀ holder, Holds config holder block.address → holder = .list agent classIndex)
    (rest : state.limit ≠ 0 → ∃ chunk count, heap.header chunk = some classIndex ∧
      state.limit = chunk + chunkSize ∧
      state.next = chunk + chunkDataOffset + count * blockSize classIndex)
    (restFree : ∀ chunk holder address, state.limit = chunk + chunkSize →
      address = block.address ∨ Holds config holder address →
        Placed heap chunk classIndex address → address < state.next)
    (otherRests : ∀ who index chunk, ¬(who = agent ∧ index = classIndex) →
      (config.shared.classes who index).limit = chunk + chunkSize →
        Placed heap chunk index block.address →
          block.address < (config.shared.classes who index).next)
    (oneRest : ∀ who index, ¬(who = agent ∧ index = classIndex) → state.limit ≠ 0 →
      (config.shared.classes who index).limit ≠ state.limit) :
    Blocks (config.move agent heap phase) := by
  have wasFreed : ∀ who freed, ((config.move agent heap phase).phase who).freed = some freed →
      (config.phase who).freed = some freed := by
    intro who freed isFreed
    rw [phase_move] at isFreed
    split_ifs at isFreed with same
    · rw [rests] at isFreed
      cases isFreed
    · exact isFreed
  have held : ∀ holder address, Holds (config.move agent heap phase) holder address →
      (address = block.address ∧ holder = .user) ∨
        (address ≠ block.address ∧ Holds config holder address) := by
    intro holder address holds
    cases holder with
    | user =>
        obtain ⟨other, isLive, isPooled, same⟩ := holds
        rw [shared_move, live] at isLive
        apply isLive.elim
        · exact fun isBlock => Or.inl ⟨by rw [← same, isBlock], rfl⟩
        · intro wasLive
          have holds : Holds config .user address := ⟨other, wasLive, isPooled, same⟩
          exact Or.inr ⟨fun isHere => (nomatch wasHeld .user (isHere ▸ holds)), holds⟩
    | list who index =>
        change address ∈ (heap.classes who index).free at holds
        rw [classes] at holds
        split_ifs at holds with here
        · rw [here.1, here.2]
          exact Or.inr ⟨fun isHere => isNew (isHere ▸ holds), free.subset holds⟩
        · refine Or.inr ⟨fun isHere => here ?_, holds⟩
          have same := wasHeld (.list who index) (isHere ▸ holds)
          cases same
          exact ⟨rfl, rfl⟩
    | hand who =>
        obtain ⟨freed, isFreed, isPooled⟩ := holds
        have holds : Holds config (.hand who) address := ⟨freed, wasFreed who freed isFreed, isPooled⟩
        exact Or.inr ⟨fun isHere => (nomatch wasHeld (.hand who) (isHere ▸ holds)), holds⟩
  have keeps : ∀ other, Known config.shared other → Known heap other := fun other isKnown =>
    isKnown.mono header fun isFallback => fallback ▸ isFallback
  constructor
  · intro other isLive
    rw [shared_move, live] at isLive
    exact isLive.elim (fun same => same ▸ known) fun wasLive => keeps other (blocks.known other wasLive)
  · exact fun who freed isFreed => keeps freed (blocks.knownFreed who freed (wasFreed who freed isFreed))
  · intro who index address isListed
    have wasListed : address ∈ (config.shared.classes who index).free := by
      rw [shared_move, classes] at isListed
      split_ifs at isListed with here
      · exact here.1 ▸ here.2 ▸ free.subset isListed
      · exact isListed
    obtain ⟨chunk, placed⟩ := blocks.listed who index address wasListed
    exact ⟨chunk, placed.mono header⟩
  · intro who index
    rw [shared_move, classes]
    split_ifs with here
    · exact (blocks.nodup agent classIndex).sublist free
    · exact blocks.nodup who index
  · intro holder other address holds otherHolds
    apply (held holder address holds).elim <;> apply (held other address otherHolds).elim
    · exact fun isUser otherIsUser => otherIsUser.2.trans isUser.2.symm
    · exact fun before isHere => absurd isHere.1 before.1
    · exact fun isHere before => absurd isHere.1 before.1
    · exact fun otherBefore before => blocks.oneHolder holder other address before.2 otherBefore.2
  · intro one isLive other otherLive isPooled otherPooled same
    rw [shared_move, live] at isLive otherLive
    have clash : ∀ old ∈ config.shared.live, old.pooled.isSome = true →
        old.address ≠ block.address := fun old wasLive oldPooled here =>
      nomatch (wasHeld .user ⟨old, wasLive, oldPooled, here⟩)
    apply isLive.elim <;> apply otherLive.elim
    · exact fun otherIsBlock isBlock => isBlock.trans otherIsBlock.symm
    · exact fun wasLive isBlock => absurd (same.symm.trans (congrArg Block.address isBlock))
        (clash other wasLive otherPooled)
    · exact fun otherIsBlock wasLive => absurd (same.trans (congrArg Block.address otherIsBlock))
        (clash one wasLive isPooled)
    · exact fun otherWasLive wasLive =>
        blocks.oneUser one wasLive other otherWasLive isPooled otherPooled same
  · intro who freed isFreed isLive
    rw [shared_move, live] at isLive
    apply isLive.elim
    · intro isBlock
      have isPooled : freed.pooled.isSome = true := by rw [isBlock, pooled]; rfl
      exact nomatch (wasHeld (.hand who)
        ⟨freed, wasFreed who freed isFreed, isPooled, congrArg Block.address isBlock⟩)
    · exact blocks.freedDead who freed (wasFreed who freed isFreed)
  · exact fun who other freed isFreed otherFreed => blocks.freedOnce who other freed
      (wasFreed who freed isFreed) (wasFreed other freed otherFreed)
  · exact fun other isFallback => blocks.fallbackKind other (fallback ▸ isFallback)
  · exact fun one isFallback other otherFallback => blocks.fallbackApart one
      (fallback ▸ isFallback) other (fallback ▸ otherFallback)
  · exact fun one isFallback start isMapped => blocks.fallbackOutside one (fallback ▸ isFallback)
      start (mapped ▸ isMapped)
  · intro who index limit
    rw [shared_move, classes] at limit ⊢
    split_ifs at limit ⊢ with here
    · exact here.2 ▸ rest limit
    · obtain ⟨restChunk, count, isCarved, place⟩ := blocks.rest who index limit
      exact ⟨restChunk, count, header restChunk index isCarved, place⟩
  · intro who index restChunk holder address limit holds isPlaced
    rw [shared_move, classes] at limit ⊢
    split_ifs at limit ⊢ with here
    · refine restFree restChunk holder address limit ?_ (here.2 ▸ isPlaced)
      exact (held holder address holds).imp And.left And.right
    · apply (held holder address holds).elim
      · exact fun isHere => isHere.1 ▸ otherRests who index restChunk here limit (isHere.1 ▸ isPlaced)
      · intro wasHeld
        have ends : (config.shared.classes who index).limit ≠ 0 := by
          rw [limit]
          exact (Nat.add_pos_right _ (by decide)).ne'
        obtain ⟨oldChunk, -, isCarved, oldLimit, -⟩ := blocks.rest who index ends
        have sameChunk : oldChunk = restChunk := Nat.add_right_cancel (oldLimit.symm.trans limit)
        exact blocks.restFree who index restChunk holder address limit wasHeld.2
          ⟨sameChunk ▸ isCarved, isPlaced.position, isPlaced.fits⟩
  · intro who index other otherIndex limit same
    simp only [shared_move, classes] at limit same
    split_ifs at limit same with here otherHere otherHere
    · exact ⟨here.1.trans otherHere.1.symm, here.2.trans otherHere.2.symm⟩
    · exact absurd same.symm (oneRest other otherIndex otherHere limit)
    · exact absurd same (oneRest who index here (same ▸ limit))
    · exact blocks.oneRest who index other otherIndex limit same

variable {requested classIndex address chunk : Nat}

omit [DecidableEq Agent] in
/-- A block of a class, for a request of that class. -/
theorem known_of_placed {heap : Heap Agent} (isClass : classOf requested = some classIndex)
    (placed : Placed heap chunk classIndex address) (aligned : chunk % chunkSize = 0) :
    Known heap ⟨address, requested, blockSize classIndex, some classIndex⟩ where
  large := (le_blockSize isClass).1
  positive := blockSize_positive classIndex
  aligned := placed.aligned aligned
  fromFallback := fun isNone => nomatch isNone
  fromPool := by
    intro other isPooled
    cases isPooled
    exact ⟨isClass, rfl, chunk, placed⟩

theorem Blocks.pop (blocks : Blocks config) (chunks : Chunks config) {rest : List Nat}
    (isClass : classOf requested = some classIndex)
    (starts : (config.shared.classes agent classIndex).free = address :: rest) :
    Blocks (config.move agent
      ((config.shared.setClass agent classIndex
        { config.shared.classes agent classIndex with free := rest }).give
          ⟨address, requested, blockSize classIndex, some classIndex⟩) .resting) := by
  have isListed : address ∈ (config.shared.classes agent classIndex).free := by
    rw [starts]
    exact List.mem_cons_self
  have holds : Holds config (.list agent classIndex) address := isListed
  obtain ⟨chunk, placed⟩ := blocks.listed agent classIndex address isListed
  have aligned := (chunks.carved chunk classIndex placed.header).aligned
  refine blocks.handOut rfl (classes_setClass config.shared agent classIndex _) rfl rfl rfl
    (fun _ _ isCarved => isCarved) rfl ((known_of_placed isClass placed aligned).mono
      (fun _ _ isCarved => isCarved) id) ?_ ?_ ?_ ?_ ?_ ?_ ?_
  · rw [starts]
    exact List.sublist_cons_self address rest
  · exact (List.nodup_cons.mp (starts ▸ blocks.nodup agent classIndex)).1
  · exact fun holder held => blocks.oneHolder holder _ address held holds
  · exact blocks.rest agent classIndex
  · intro other holder otherAddress limit held isPlaced
    apply held.elim
    · intro same
      have heldThere : Holds config (.list agent classIndex) otherAddress := by
        rw [same]
        exact holds
      exact blocks.restFree agent classIndex other _ otherAddress limit heldThere
        ⟨isPlaced.header, isPlaced.position, isPlaced.fits⟩
    · exact fun wasHeld => blocks.restFree agent classIndex other holder otherAddress limit wasHeld
        ⟨isPlaced.header, isPlaced.position, isPlaced.fits⟩
  · exact fun who index other _ limit isPlaced => blocks.restFree who index other _ address limit
      holds ⟨isPlaced.header, isPlaced.position, isPlaced.fits⟩
  · exact fun who index differs ends same => differs
      ((blocks.oneRest agent classIndex who index ends same.symm).imp Eq.symm Eq.symm)

theorem Blocks.bump (blocks : Blocks config) (chunks : Chunks config)
    (isClass : classOf requested = some classIndex)
    (fits : (config.shared.classes agent classIndex).next + blockSize classIndex ≤
      (config.shared.classes agent classIndex).limit) :
    Blocks (config.move agent
      ((config.shared.setClass agent classIndex
        { config.shared.classes agent classIndex with
          next := (config.shared.classes agent classIndex).next + blockSize classIndex }).give
            ⟨(config.shared.classes agent classIndex).next, requested, blockSize classIndex,
              some classIndex⟩) .resting) := by
  have positive := blockSize_positive classIndex
  have ends : (config.shared.classes agent classIndex).limit ≠ 0 := by omega
  obtain ⟨chunk, count, isCarved, limit, next⟩ := blocks.rest agent classIndex ends
  have placed : Placed config.shared chunk classIndex
      (config.shared.classes agent classIndex).next := ⟨isCarved, ⟨count, next⟩, limit ▸ fits⟩
  have aligned := (chunks.carved chunk classIndex isCarved).aligned
  have sameChunk : ∀ other index, Placed config.shared other index
      (config.shared.classes agent classIndex).next → other = chunk := fun other index isPlaced =>
    (isPlaced.chunkOf (chunks.carved other index isPlaced.header).aligned).symm.trans
      (placed.chunkOf aligned)
  refine blocks.handOut rfl (classes_setClass config.shared agent classIndex _) rfl rfl rfl
    (fun _ _ isCarved => isCarved) rfl ((known_of_placed isClass placed aligned).mono
      (fun _ _ isCarved => isCarved) id) (List.Sublist.refl _) ?_ ?_ ?_ ?_ ?_ ?_
  · intro isListed
    exact absurd (blocks.restFree agent classIndex chunk (.list agent classIndex) _ limit isListed
      placed) (lt_irrefl _)
  · intro holder holds
    exact absurd (blocks.restFree agent classIndex chunk holder _ limit holds placed) (lt_irrefl _)
  · intro _
    refine ⟨chunk, count + 1, isCarved, limit, ?_⟩
    rw [Nat.succ_mul]
    exact (congrArg (· + blockSize classIndex) next).trans (Nat.add_assoc _ _ _)
  · intro other holder otherAddress otherLimit held isPlaced
    apply held.elim
    · intro same
      rw [same]
      exact Nat.lt_add_of_pos_right positive
    · intro wasHeld
      exact (blocks.restFree agent classIndex other holder otherAddress otherLimit wasHeld
        ⟨isPlaced.header, isPlaced.position, isPlaced.fits⟩).trans
          (Nat.lt_add_of_pos_right positive)
  · intro who index other differs otherLimit isPlaced
    have here := sameChunk other index ⟨isPlaced.header, isPlaced.position, isPlaced.fits⟩
    have same := blocks.oneRest agent classIndex who index ends
      (limit.trans ((congrArg (· + chunkSize) here.symm).trans otherLimit.symm))
    exact absurd (same.imp Eq.symm Eq.symm) differs
  · exact fun who index differs _ same => differs
      ((blocks.oneRest agent classIndex who index ends same.symm).imp Eq.symm Eq.symm)

theorem Blocks.carve (blocks : Blocks config) (chunks : Chunks config)
    (isClass : classOf requested = some classIndex)
    (isTaken : (config.phase agent).taken = some chunk) :
    Blocks (config.move agent
      ((({ config.shared with
        header := Function.update config.shared.header chunk (some classIndex) }).setClass agent
          classIndex
          { config.shared.classes agent classIndex with
            next := chunk + chunkDataOffset + blockSize classIndex
            limit := chunk + chunkSize }).give
            ⟨chunk + chunkDataOffset, requested, blockSize classIndex, some classIndex⟩)
      .resting) := by
  have fresh := chunks.taken agent chunk isTaken
  have isSmall := (le_blockSize isClass).2
  have grows : ∀ other index, config.shared.header other = some index →
      Function.update config.shared.header chunk (some classIndex) other = some index := by
    intro other index isCarved
    rw [Function.update_of_ne _, isCarved]
    intro same
    rw [same, fresh.noHeader] at isCarved
    cases isCarved
  have noneHere : ∀ other index otherAddress, Placed config.shared other index otherAddress →
      chunkOf otherAddress ≠ chunk := by
    intro other index otherAddress isPlaced here
    have isCarved := isPlaced.header
    rw [← isPlaced.chunkOf (chunks.carved other index isCarved).aligned, here,
      fresh.noHeader] at isCarved
    cases isCarved
  have noRest : ∀ who index, (config.shared.classes who index).limit ≠ chunk + chunkSize := by
    intro who index same
    have ends : (config.shared.classes who index).limit ≠ 0 := by
      rw [same]
      exact (Nat.add_pos_right _ (by decide)).ne'
    obtain ⟨other, -, isCarved, limit, -⟩ := blocks.rest who index ends
    rw [Nat.add_right_cancel (limit.symm.trans same), fresh.noHeader] at isCarved
    cases isCarved
  have aligned := fresh.aligned
  have starts : chunkOf (chunk + chunkDataOffset) = chunk := by
    simp only [chunkOf, chunkSize, chunkDataOffset] at aligned ⊢
    omega
  have placed : Placed ({ config.shared with
      header := Function.update config.shared.header chunk (some classIndex) } : Heap Agent) chunk
        classIndex (chunk + chunkDataOffset) := by
    refine ⟨Function.update_self chunk _ _, ⟨0, by rw [Nat.zero_mul, Nat.add_zero]⟩, ?_⟩
    simp only [blockSize, granule, numClasses, maxPooled, chunkSize, chunkDataOffset] at isSmall ⊢
    omega
  have alignedThere : ∀ other index, Function.update config.shared.header chunk (some classIndex)
      other = some index → other % chunkSize = 0 := by
    intro other index isCarved
    by_cases same : other = chunk
    · rw [same, aligned]
    · rw [Function.update_of_ne same] at isCarved
      exact (chunks.carved other index isCarved).aligned
  refine blocks.handOut rfl (classes_setClass _ agent classIndex _) rfl rfl rfl grows rfl
    ((known_of_placed isClass placed aligned).mono (fun _ _ isCarved => isCarved) id)
    (List.Sublist.refl _) ?_ ?_ ?_ ?_ ?_ ?_
  · intro isListed
    obtain ⟨other, isPlaced⟩ := blocks.listed agent classIndex _ isListed
    exact noneHere other classIndex _ isPlaced starts
  · intro holder holds
    obtain ⟨other, index, isPlaced⟩ := blocks.placed holds
    exact absurd starts (noneHere other index _ isPlaced)
  · exact fun _ => ⟨chunk, 1, Function.update_self chunk _ _, rfl, by rw [Nat.one_mul]⟩
  · intro other holder otherAddress limit held isPlaced
    apply held.elim
    · intro same
      rw [same]
      exact Nat.lt_add_of_pos_right (blockSize_positive classIndex)
    · intro wasHeld
      obtain ⟨oldChunk, index, wasPlaced⟩ := blocks.placed wasHeld
      have here : other = chunk := Nat.add_right_cancel limit.symm
      have isThere := isPlaced.chunkOf (alignedThere other classIndex isPlaced.header)
      exact absurd (isThere.trans here) (noneHere oldChunk index otherAddress wasPlaced)
  · intro who index other _ limit isPlaced
    have isThere := isPlaced.chunkOf (alignedThere other index isPlaced.header)
    exact absurd (limit.trans (congrArg (· + chunkSize) (isThere.symm.trans starts))) (noRest who index)
  · exact fun who index _ _ => noRest who index

theorem Blocks.malloc (blocks : Blocks config) {size : Nat} (large : requested ≤ size)
    (positive : 0 < size) (aligned : address % granule = 0)
    (apart : ∀ block ∈ config.shared.fallback, block.apartFrom address size)
    (outside : ∀ start ∈ config.shared.mapped,
      start + regionSize ≤ address ∨ address + size ≤ start) :
    Blocks (config.move agent
      { config.shared.give ⟨address, requested, size, none⟩ with
        fallback := insert ⟨address, requested, size, none⟩ config.shared.fallback } .resting) := by
  have isNew : (⟨address, requested, size, none⟩ : Block) ∉ config.shared.fallback := by
    intro isFallback
    have overlaps := apart _ isFallback
    simp only [Block.apartFrom] at overlaps
    omega
  have wasFreed : ∀ who freed, ((config.move agent
      { config.shared.give ⟨address, requested, size, none⟩ with
        fallback := insert ⟨address, requested, size, none⟩ config.shared.fallback }
        .resting).phase who).freed = some freed → (config.phase who).freed = some freed := by
    intro who freed isFreed
    rw [phase_move] at isFreed
    split_ifs at isFreed with same
    · cases isFreed
    · exact isFreed
  have held : ∀ holder other, Holds (config.move agent
      { config.shared.give ⟨address, requested, size, none⟩ with
        fallback := insert ⟨address, requested, size, none⟩ config.shared.fallback } .resting)
        holder other → Holds config holder other := by
    intro holder other holds
    cases holder with
    | user =>
        obtain ⟨block, isLive, isPooled, same⟩ := holds
        refine ⟨block, isLive.resolve_left fun isBlock => ?_, isPooled, same⟩
        rw [isBlock] at isPooled
        cases isPooled
    | list who index => exact holds
    | hand who =>
        obtain ⟨freed, isFreed, isPooled⟩ := holds
        exact ⟨freed, wasFreed who freed isFreed, isPooled⟩
  have keeps : ∀ block, Known config.shared block → Known
      { config.shared.give ⟨address, requested, size, none⟩ with
        fallback := insert ⟨address, requested, size, none⟩ config.shared.fallback } block :=
    fun block known => known.mono (fun _ _ isCarved => isCarved) Or.inr
  constructor
  · intro block isLive
    apply isLive.elim
    · intro isBlock
      rw [isBlock]
      exact ⟨large, positive, aligned, fun _ => Or.inl rfl, fun _ isPooled => nomatch isPooled⟩
    · exact fun wasLive => keeps block (blocks.known block wasLive)
  · exact fun who freed isFreed => keeps freed (blocks.knownFreed who freed (wasFreed who freed isFreed))
  · intro who index other isListed
    obtain ⟨chunk, placed⟩ := blocks.listed who index other isListed
    exact ⟨chunk, placed.mono fun _ _ isCarved => isCarved⟩
  · exact blocks.nodup
  · exact fun holder other address' holds otherHolds => blocks.oneHolder holder other address'
      (held holder address' holds) (held other address' otherHolds)
  · intro one isLive other otherLive isPooled otherPooled same
    have wasLive : ∀ block ∈ insert (⟨address, requested, size, none⟩ : Block) config.shared.live,
        block.pooled.isSome = true → block ∈ config.shared.live := by
      intro block isIn blockPooled
      refine isIn.resolve_left fun isBlock => ?_
      rw [isBlock] at blockPooled
      cases blockPooled
    exact blocks.oneUser one (wasLive one isLive isPooled) other
      (wasLive other otherLive otherPooled) isPooled otherPooled same
  · intro who freed isFreed isLive
    have before := wasFreed who freed isFreed
    apply isLive.elim
    · intro isBlock
      have known := blocks.knownFreed who freed before
      rw [isBlock] at known
      exact isNew (known.fromFallback rfl)
    · exact blocks.freedDead who freed before
  · exact fun who other freed isFreed otherFreed => blocks.freedOnce who other freed
      (wasFreed who freed isFreed) (wasFreed other freed otherFreed)
  · intro block isFallback
    apply isFallback.elim
    · intro isBlock
      rw [isBlock]
      exact ⟨rfl, positive⟩
    · exact blocks.fallbackKind block
  · intro one isFallback other otherFallback differs
    apply isFallback.elim <;> apply otherFallback.elim
    · exact fun otherIsBlock isBlock => absurd (isBlock.trans otherIsBlock.symm) differs
    · intro wasFallback isBlock
      rw [isBlock]
      exact (apart other wasFallback).symm
    · intro otherIsBlock wasFallback
      rw [otherIsBlock]
      exact apart one wasFallback
    · exact fun otherWas was => blocks.fallbackApart one was other otherWas differs
  · intro block isFallback start isMapped
    apply isFallback.elim
    · intro isBlock
      rw [isBlock]
      exact (outside start isMapped).symm
    · exact fun wasFallback => blocks.fallbackOutside block wasFallback start isMapped
  · exact blocks.rest
  · exact fun who index other holder otherAddress limit holds placed =>
      blocks.restFree who index other holder otherAddress limit (held holder otherAddress holds)
        (placed.mono fun _ _ isCarved => isCarved)
  · exact blocks.oneRest

/-- A block that its user gives up. -/
theorem Blocks.free (blocks : Blocks config) {block : Block}
    (isLive : block ∈ config.shared.live) :
    Blocks (config.move agent { config.shared with live := config.shared.live \ {block} }
      (.freeing block)) := by
  have wasFreed : ∀ who freed, ((config.move agent
      { config.shared with live := config.shared.live \ {block} } (.freeing block)).phase who).freed =
        some freed → (who = agent ∧ freed = block) ∨
          (who ≠ agent ∧ (config.phase who).freed = some freed) := by
    intro who freed isFreed
    rw [phase_move] at isFreed
    split_ifs at isFreed with same
    · cases isFreed
      exact Or.inl ⟨same, rfl⟩
    · exact Or.inr ⟨same, isFreed⟩
  have held : ∀ holder address, Holds (config.move agent
      { config.shared with live := config.shared.live \ {block} } (.freeing block)) holder address →
        (holder = .hand agent ∧ block.pooled.isSome = true ∧ address = block.address) ∨
          (holder ≠ .hand agent ∧ Holds config holder address ∧
            (holder = .user → block.pooled.isSome = true → address ≠ block.address)) := by
    intro holder address holds
    cases holder with
    | user =>
        obtain ⟨other, otherLive, isPooled, same⟩ := holds
        refine Or.inr ⟨fun same => (nomatch same), ⟨other, otherLive.1, isPooled, same⟩, ?_⟩
        intro _ blockPooled here
        exact otherLive.2 (blocks.oneUser other otherLive.1 block isLive isPooled blockPooled
          (same.trans here))
    | list who index => exact Or.inr ⟨fun same => (nomatch same), holds, fun same => (nomatch same)⟩
    | hand who =>
        obtain ⟨freed, isFreed, isPooled, same⟩ := holds
        apply (wasFreed who freed isFreed).imp
        · intro isHere
          exact ⟨by rw [isHere.1], isHere.2 ▸ isPooled, isHere.2 ▸ same.symm⟩
        · intro before
          refine ⟨fun same => before.1 ?_, ⟨freed, before.2, isPooled, same⟩, fun same => (nomatch same)⟩
          cases same
          rfl
  have wasHeld : ∀ holder address, Holds (config.move agent
      { config.shared with live := config.shared.live \ {block} } (.freeing block)) holder address →
        ∃ old, Holds config old address := by
    intro holder address holds
    apply (held holder address holds).elim
    · exact fun isHere => ⟨.user, block, isLive, isHere.2.1, isHere.2.2.symm⟩
    · exact fun before => ⟨holder, before.2.1⟩
  constructor
  · exact fun other otherLive => (blocks.known other otherLive.1).mono (fun _ _ isCarved => isCarved) id
  · intro who freed isFreed
    apply (wasFreed who freed isFreed).elim
    · intro isHere
      rw [isHere.2]
      exact (blocks.known block isLive).mono (fun _ _ isCarved => isCarved) id
    · exact fun before => (blocks.knownFreed who freed before.2).mono (fun _ _ isCarved => isCarved) id
  · intro who index address isListed
    obtain ⟨chunk, placed⟩ := blocks.listed who index address isListed
    exact ⟨chunk, placed.mono fun _ _ isCarved => isCarved⟩
  · exact blocks.nodup
  · have apart : ∀ holder address, holder ≠ .hand agent → Holds config holder address →
        (holder = .user → block.pooled.isSome = true → address ≠ block.address) →
        block.pooled.isSome = true → address ≠ block.address := by
      intro holder address _ holds isUser isPooled here
      have was : Holds config .user block.address := ⟨block, isLive, isPooled, rfl⟩
      exact isUser (blocks.oneHolder holder .user address holds (here ▸ was)) isPooled here
    intro holder other address holds otherHolds
    apply (held holder address holds).elim <;> apply (held other address otherHolds).elim
    · exact fun otherHere isHere => isHere.1.trans otherHere.1.symm
    · exact fun before isHere => absurd isHere.2.2
        (apart other address before.1 before.2.1 before.2.2 isHere.2.1)
    · exact fun isHere before => absurd isHere.2.2
        (apart holder address before.1 before.2.1 before.2.2 isHere.2.1)
    · exact fun otherBefore before => blocks.oneHolder holder other address before.2.1 otherBefore.2.1
  · exact fun one isOne other isOther => blocks.oneUser one isOne.1 other isOther.1
  · intro who freed isFreed stillLive
    apply (wasFreed who freed isFreed).elim
    · exact fun isHere => stillLive.2 isHere.2
    · exact fun before => blocks.freedDead who freed before.2 stillLive.1
  · intro who other freed isFreed otherFreed
    apply (wasFreed who freed isFreed).elim <;> apply (wasFreed other freed otherFreed).elim
    · exact fun otherHere isHere => isHere.1.trans otherHere.1.symm
    · exact fun before isHere => absurd (isHere.2 ▸ isLive) (blocks.freedDead other freed before.2)
    · exact fun isHere before => absurd (isHere.2 ▸ isLive) (blocks.freedDead who freed before.2)
    · exact fun otherBefore before => blocks.freedOnce who other freed before.2 otherBefore.2
  · exact blocks.fallbackKind
  · exact blocks.fallbackApart
  · exact blocks.fallbackOutside
  · exact blocks.rest
  · intro who index chunk holder address limit holds placed
    obtain ⟨old, was⟩ := wasHeld holder address holds
    exact blocks.restFree who index chunk old address limit was
      (placed.mono fun _ _ isCarved => isCarved)
  · exact blocks.oneRest

theorem Blocks.pool (blocks : Blocks config) (chunks : Chunks config) {block : Block}
    (stands : (config.phase agent).freed = some block) (isPooled : block.pooled.isSome = true)
    (header : config.shared.header (chunkOf block.address) = some classIndex) :
    Blocks (config.move agent (config.shared.setClass agent classIndex
      { config.shared.classes agent classIndex with
        free := block.address :: (config.shared.classes agent classIndex).free }) .resting) := by
  have holds : Holds config (.hand agent) block.address := ⟨block, stands, isPooled, rfl⟩
  obtain ⟨chunk, index, wasPlaced⟩ := blocks.placed holds
  have sameChunk := wasPlaced.chunkOf (chunks.carved chunk index wasPlaced.header).aligned
  have sameIndex : index = classIndex := by
    have isCarved := wasPlaced.header
    rw [← sameChunk, header] at isCarved
    exact (Option.some.inj isCarved).symm
  subst sameIndex
  have classes := classes_setClass config.shared agent index
    { config.shared.classes agent index with
      free := block.address :: (config.shared.classes agent index).free }
  have wasFreed : ∀ who freed, ((config.move agent (config.shared.setClass agent index
      { config.shared.classes agent index with
        free := block.address :: (config.shared.classes agent index).free }) .resting).phase who).freed =
        some freed → who ≠ agent ∧ (config.phase who).freed = some freed := by
    intro who freed isFreed
    rw [phase_move] at isFreed
    split_ifs at isFreed with same
    · cases isFreed
    · exact ⟨same, isFreed⟩
  have held : ∀ holder address, Holds (config.move agent (config.shared.setClass agent index
      { config.shared.classes agent index with
        free := block.address :: (config.shared.classes agent index).free }) .resting) holder address →
        (holder = .list agent index ∧ address = block.address) ∨
          (holder ≠ .hand agent ∧ Holds config holder address) := by
    intro holder address holds
    cases holder with
    | user => exact Or.inr ⟨fun same => (nomatch same), holds⟩
    | list who other =>
        change address ∈ ((config.shared.setClass agent index _).classes who other).free at holds
        rw [classes] at holds
        split_ifs at holds with here
        · apply (List.mem_cons.mp holds).imp
          · exact fun isHere => ⟨by rw [here.1, here.2], isHere⟩
          · exact fun was => ⟨fun same => (nomatch same), here.1 ▸ here.2 ▸ was⟩
        · exact Or.inr ⟨fun same => (nomatch same), holds⟩
    | hand who =>
        obtain ⟨freed, isFreed, freedPooled⟩ := holds
        have before := wasFreed who freed isFreed
        refine Or.inr ⟨fun same => before.1 ?_, freed, before.2, freedPooled⟩
        cases same
        rfl
  have apart : ∀ holder address, holder ≠ .hand agent → Holds config holder address →
      address ≠ block.address := fun holder address differs was here =>
    differs (blocks.oneHolder holder (.hand agent) address was (here ▸ holds))
  have wasHeld : ∀ holder address, Holds (config.move agent (config.shared.setClass agent index
      { config.shared.classes agent index with
        free := block.address :: (config.shared.classes agent index).free }) .resting) holder address →
        ∃ old, Holds config old address := by
    intro holder address holds'
    apply (held holder address holds').elim
    · exact fun isHere => ⟨.hand agent, isHere.2 ▸ holds⟩
    · exact fun before => ⟨holder, before.2⟩
  have rests : ∀ who other, ((config.shared.setClass agent index
      { config.shared.classes agent index with
        free := block.address :: (config.shared.classes agent index).free }).classes who other).limit =
          (config.shared.classes who other).limit ∧ ((config.shared.setClass agent index
      { config.shared.classes agent index with
        free := block.address :: (config.shared.classes agent index).free }).classes who other).next =
          (config.shared.classes who other).next := by
    intro who other
    rw [classes]
    split_ifs with here
    · exact here.1 ▸ here.2 ▸ ⟨rfl, rfl⟩
    · exact ⟨rfl, rfl⟩
  have keeps : ∀ other, Known config.shared other → Known (config.shared.setClass agent index
      { config.shared.classes agent index with
        free := block.address :: (config.shared.classes agent index).free }) other :=
    fun other known => known.mono (fun _ _ isCarved => isCarved) id
  constructor
  · exact fun other isLive => keeps other (blocks.known other isLive)
  · exact fun who freed isFreed => keeps freed
      (blocks.knownFreed who freed (wasFreed who freed isFreed).2)
  · intro who other address isListed
    rw [shared_move, classes] at isListed
    split_ifs at isListed with here
    · rw [here.2]
      apply (List.mem_cons.mp isListed).elim
      · intro isHere
        refine ⟨chunk, ?_⟩
        rw [isHere]
        exact wasPlaced.mono fun _ _ isCarved => isCarved
      · intro was
        obtain ⟨old, placed⟩ := blocks.listed agent index address was
        exact ⟨old, placed.mono fun _ _ isCarved => isCarved⟩
    · obtain ⟨old, placed⟩ := blocks.listed who other address isListed
      exact ⟨old, placed.mono fun _ _ isCarved => isCarved⟩
  · intro who other
    rw [shared_move, classes]
    split_ifs with here
    · refine List.nodup_cons.mpr ⟨fun isListed => ?_, blocks.nodup agent index⟩
      exact apart (.list agent index) block.address (fun same => nomatch same) isListed rfl
    · exact blocks.nodup who other
  · intro holder other address holds' otherHolds
    apply (held holder address holds').elim <;> apply (held other address otherHolds).elim
    · exact fun otherHere isHere => isHere.1.trans otherHere.1.symm
    · exact fun before isHere => absurd isHere.2 (apart other address before.1 before.2)
    · exact fun isHere before => absurd isHere.2 (apart holder address before.1 before.2)
    · exact fun otherBefore before => blocks.oneHolder holder other address before.2 otherBefore.2
  · exact blocks.oneUser
  · exact fun who freed isFreed => blocks.freedDead who freed (wasFreed who freed isFreed).2
  · exact fun who other freed isFreed otherFreed => blocks.freedOnce who other freed
      (wasFreed who freed isFreed).2 (wasFreed other freed otherFreed).2
  · exact blocks.fallbackKind
  · exact blocks.fallbackApart
  · exact blocks.fallbackOutside
  · intro who other limit
    rw [shared_move, (rests who other).1] at limit ⊢
    rw [(rests who other).2]
    exact blocks.rest who other limit
  · intro who other old holder address limit holds' placed
    rw [shared_move, (rests who other).1] at limit
    rw [shared_move, (rests who other).2]
    obtain ⟨before, was⟩ := wasHeld holder address holds'
    exact blocks.restFree who other old before address limit was
      (placed.mono fun _ _ isCarved => isCarved)
  · intro who other otherAgent otherIndex limit same
    rw [shared_move, (rests who other).1] at limit same
    rw [(rests otherAgent otherIndex).1] at same
    exact blocks.oneRest who other otherAgent otherIndex limit same

theorem Blocks.giveBack (blocks : Blocks config) {block : Block}
    (stands : (config.phase agent).freed = some block) :
    Blocks (config.move agent
      { config.shared with fallback := config.shared.fallback \ {block} } .resting) := by
  have wasFreed : ∀ who freed, ((config.move agent
      { config.shared with fallback := config.shared.fallback \ {block} } .resting).phase who).freed =
        some freed → who ≠ agent ∧ (config.phase who).freed = some freed := by
    intro who freed isFreed
    rw [phase_move] at isFreed
    split_ifs at isFreed with same
    · cases isFreed
    · exact ⟨same, isFreed⟩
  have held : ∀ holder address, Holds (config.move agent
      { config.shared with fallback := config.shared.fallback \ {block} } .resting) holder address →
        Holds config holder address := by
    intro holder address holds
    cases holder with
    | user => exact holds
    | list who index => exact holds
    | hand who =>
        obtain ⟨freed, isFreed, isPooled⟩ := holds
        exact ⟨freed, (wasFreed who freed isFreed).2, isPooled⟩
  have keeps : ∀ other, other ≠ block → Known config.shared other →
      Known { config.shared with fallback := config.shared.fallback \ {block} } other :=
    fun other differs known => known.mono (fun _ _ isCarved => isCarved) fun isIn => ⟨isIn, differs⟩
  constructor
  · intro other isLive
    apply keeps other _ (blocks.known other isLive)
    exact fun same => blocks.freedDead agent block stands (same ▸ isLive)
  · intro who freed isFreed
    have before := wasFreed who freed isFreed
    apply keeps freed _ (blocks.knownFreed who freed before.2)
    exact fun same => before.1 (blocks.freedOnce who agent block (same ▸ before.2) stands)
  · intro who index address isListed
    obtain ⟨chunk, placed⟩ := blocks.listed who index address isListed
    exact ⟨chunk, placed.mono fun _ _ isCarved => isCarved⟩
  · exact blocks.nodup
  · exact fun holder other address holds otherHolds => blocks.oneHolder holder other address
      (held holder address holds) (held other address otherHolds)
  · exact blocks.oneUser
  · exact fun who freed isFreed => blocks.freedDead who freed (wasFreed who freed isFreed).2
  · exact fun who other freed isFreed otherFreed => blocks.freedOnce who other freed
      (wasFreed who freed isFreed).2 (wasFreed other freed otherFreed).2
  · exact fun one isFallback => blocks.fallbackKind one isFallback.1
  · exact fun one isFallback other otherFallback => blocks.fallbackApart one isFallback.1 other
      otherFallback.1
  · exact fun one isFallback => blocks.fallbackOutside one isFallback.1
  · exact blocks.rest
  · exact fun who index chunk holder address limit holds placed =>
      blocks.restFree who index chunk holder address limit (held holder address holds)
        (placed.mono fun _ _ isCarved => isCarved)
  · exact blocks.oneRest

theorem Blocks.step (blocks : Blocks config) (chunks : Chunks config) (requests : Requests config)
    (stands : config.phase agent = before)
    (pools : ∀ block, before = .pooling block → block.pooled.isSome = true)
    (acts : Acts agent config.shared before heap phase) :
    Blocks (config.move agent heap phase) := by
  have isClass : ∀ requested classIndex, before.request = some (requested, classIndex) →
      classOf requested = some classIndex := fun requested classIndex served =>
    requests.isClass agent requested classIndex (stands ▸ served)
  cases acts with
  | pop starts => exact blocks.pop chunks (isClass _ _ rfl) starts
  | bump _ fits => exact blocks.bump chunks (isClass _ _ rfl) fits
  | carve => exact blocks.carve chunks (isClass _ _ rfl) (stands ▸ rfl)
  | malloc address _ aligned apart outside =>
      have large := requests.large agent _ _ (congrArg Phase.fallsBack stands)
      exact blocks.malloc large.1 large.2 aligned apart outside
  | giveBack => exact blocks.giveBack (stands ▸ rfl)
  | free block isLive => exact blocks.free isLive
  | pool header => exact blocks.pool chunks (stands ▸ rfl) (pools _ rfl) header
  | map address _ _ apart =>
      refine blocks.frame stands rfl rfl rfl rfl ?_ (Or.inl rfl)
      intro block isFallback start isMapped
      apply isMapped.elim
      · exact fun same => same ▸ apart block isFallback
      · exact fun was => blocks.fallbackOutside block isFallback start was
  | unmap =>
      exact blocks.frame stands rfl rfl rfl rfl (fun block isFallback start isMapped =>
        blocks.fallbackOutside block isFallback start isMapped.1) (Or.inl rfl)
  | noRegion | above | inside | beyond =>
      exact blocks.frame stands rfl rfl rfl rfl blocks.fallbackOutside (Or.inr rfl)
  | _ => exact blocks.frame stands rfl rfl rfl rfl blocks.fallbackOutside (Or.inl rfl)

end Rayzor.Pool
