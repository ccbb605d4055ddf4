import Rayzor.Pool.Blocks

/-!
Contract: the object pool over whole runs.

Owns: which way a freed block goes, that every careful step keeps the pool sound, that a
sound pool hands out disjoint live blocks (`Safe`), and the runs in which it does not.

Does not own: the allocator that the pool falls back to, whose blocks are where its
documentation lets them be.
-/

namespace Rayzor.Pool

open Library.Interleaving

variable {Agent : Type} [DecidableEq Agent]

/-- What a thread knows of the block that it frees. -/
structure Routed (config : Config Agent (Heap Agent) Phase) : Prop where
  measuring : ∀ agent block, config.phase agent = .measuring block →
    config.shared.regionBase ≠ 0 ∧ config.shared.regionBase ≠ refused ∧
      config.shared.regionBase ≤ block.address
  pooling : ∀ agent block, config.phase agent = .pooling block → block.pooled.isSome = true
  returning : ∀ agent block, config.phase agent = .returning block → block.pooled = none

/-- The whole invariant. -/
structure Sound (config : Config Agent (Heap Agent) Phase) : Prop where
  published : Published config
  requests : Requests config
  chunks : Chunks config
  blocks : Blocks config
  routed : Routed config

omit [DecidableEq Agent] in
theorem sound_initial : Sound (initial : Config Agent (Heap Agent) Phase) where
  published := published_initial
  requests := requests_initial
  chunks := chunks_initial
  blocks := blocks_initial
  routed := {
    measuring := fun _ _ stands => nomatch stands
    pooling := fun _ _ stands => nomatch stands
    returning := fun _ _ stands => nomatch stands }

variable {config : Config Agent (Heap Agent) Phase} {agent : Agent} {heap : Heap Agent}
  {before phase : Phase} {block : Block}

omit [DecidableEq Agent] in
/-- A chunk with a header lies in a region that is in use. -/
theorem Sound.carved (sound : Sound config) {chunk classIndex : Nat}
    (isCarved : config.shared.header chunk = some classIndex) :
    config.shared.regionBase ≠ 0 ∧ config.shared.regionBase ≠ refused ∧
      config.shared.regionBase ≤ chunk ∧
      config.shared.regionEnd = config.shared.regionBase + regionSize := by
  have atomics := sound.published.atomics
  have carved := sound.chunks.carved chunk classIndex isCarved
  have ends : config.shared.regionEnd ≠ 0 := by
    have fits := carved.fits
    have chunkPositive : 0 < chunkSize := by decide
    omega
  have isPublished : config.shared.published ≠ false := fun isUnpublished =>
    ends (atomics.noEnd isUnpublished)
  refine ⟨fun isNone => isPublished (atomics.unpublished (Or.inl isNone)),
    fun isRefused => isPublished (atomics.unpublished (Or.inr isRefused)), ?_, atomics.endAt ends⟩
  have start := carved.start
  simp only [firstChunk, chunkSize] at start
  omega

omit [DecidableEq Agent] in
/-- A block of the pool lies in the region. -/
theorem Sound.inRegion (sound : Sound config) (known : Known config.shared block)
    (isPooled : block.pooled.isSome = true) :
    config.shared.regionBase ≠ 0 ∧ config.shared.regionBase ≠ refused ∧
      config.shared.regionBase ≤ block.address ∧ block.address < config.shared.regionEnd := by
  obtain ⟨classIndex, pooled⟩ := Option.isSome_iff_exists.mp isPooled
  obtain ⟨-, -, chunk, placed⟩ := known.fromPool classIndex pooled
  have region := sound.carved placed.header
  have fits := (sound.chunks.carved chunk classIndex placed.header).fits
  have bounds := placed.bounds
  exact ⟨region.1, region.2.1, region.2.2.1.trans ((Nat.le_add_right _ _).trans bounds.1),
    bounds.2.trans_le fits⟩

omit [DecidableEq Agent] in
/-- A block of the fallback allocator does not. -/
theorem Sound.outsideRegion (sound : Sound config) (known : Known config.shared block)
    (isFallback : block.pooled = none) (isBase : config.shared.regionBase ≠ 0)
    (isProper : config.shared.regionBase ≠ refused)
    (above : config.shared.regionBase ≤ block.address) :
    config.shared.regionBase + regionSize ≤ block.address := by
  have isMapped := sound.published.atomics.inUse isBase isProper
  have apart := sound.blocks.fallbackOutside block (known.fromFallback isFallback) _ isMapped
  have positive := known.positive
  apply apart.resolve_left
  omega

theorem Routed.kept (routed : Routed config)
    (base : config.shared.regionBase ≠ 0 → config.shared.regionBase ≠ refused →
      heap.regionBase = config.shared.regionBase)
    (measuring : ∀ block, phase = .measuring block → heap.regionBase ≠ 0 ∧
      heap.regionBase ≠ refused ∧ heap.regionBase ≤ block.address)
    (pooling : ∀ block, phase = .pooling block → block.pooled.isSome = true)
    (returning : ∀ block, phase = .returning block → block.pooled = none) :
    Routed (config.move agent heap phase) where
  measuring := by
    intro who block stands
    rw [phase_move] at stands
    split_ifs at stands
    · exact measuring block stands
    · have was := routed.measuring who block stands
      rw [shared_move, base was.1 was.2.1]
      exact was
  pooling := by
    intro who block stands
    rw [phase_move] at stands
    split_ifs at stands
    · exact pooling block stands
    · exact routed.pooling who block stands
  returning := by
    intro who block stands
    rw [phase_move] at stands
    split_ifs at stands
    · exact returning block stands
    · exact routed.returning who block stands

theorem Sound.routed_step (sound : Sound config) (careful : Careful config agent)
    (stands : config.phase agent = before)
    (acts : Acts agent config.shared before heap phase) :
    Routed (config.move agent heap phase) := by
  have routed := sound.routed
  cases acts with
  | @noRegion _ _ block outside =>
      have known := sound.blocks.knownFreed agent block (congrArg Phase.freed stands)
      refine routed.kept (fun _ _ => rfl) (fun _ stands => nomatch stands)
        (fun _ stands => nomatch stands) ?_
      intro other isReturning
      cases isReturning
      apply Option.not_isSome_iff_eq_none.mp
      intro isPooled
      have region := sound.inRegion known isPooled
      omega
  | above isBase isProper isAbove =>
      refine routed.kept (fun _ _ => rfl) ?_ (fun _ stands => nomatch stands)
        (fun _ stands => nomatch stands)
      intro other isMeasuring
      cases isMeasuring
      exact ⟨isBase, isProper, isAbove⟩
  | @inside _ _ block isInside =>
      have known := sound.blocks.knownFreed agent block (congrArg Phase.freed stands)
      have was := routed.measuring agent block stands
      refine routed.kept (fun _ _ => rfl) (fun _ stands => nomatch stands) ?_
        (fun _ stands => nomatch stands)
      intro other isPooling
      cases isPooling
      cases isPooled : block.pooled with
      | some classIndex => rfl
      | none =>
          have outside := sound.outsideRegion known isPooled was.1 was.2.1 was.2.2
          have ends := sound.published.atomics.endAt (Nat.ne_zero_of_lt isInside)
          omega
  | @beyond _ _ block isBeyond =>
      have known := sound.blocks.knownFreed agent block (congrArg Phase.freed stands)
      refine routed.kept (fun _ _ => rfl) (fun _ stands => nomatch stands)
        (fun _ stands => nomatch stands) ?_
      intro other isReturning
      cases isReturning
      apply Option.not_isSome_iff_eq_none.mp
      exact fun isPooled => (sound.inRegion known isPooled).2.2.2.not_ge isBeyond
  | refuse =>
      refine routed.kept ?_ (fun _ stands => nomatch stands) (fun _ stands => nomatch stands)
        (fun _ stands => nomatch stands)
      intro isBase isProper
      exact absurd (careful.refusesFirst _ _ stands) (not_or.mpr ⟨isBase, isProper⟩)
  | claim noBase =>
      exact routed.kept (fun isBase => absurd noBase isBase) (fun _ stands => nomatch stands)
        (fun _ stands => nomatch stands) (fun _ stands => nomatch stands)
  | _ =>
      exact routed.kept (fun _ _ => rfl) (fun _ stands => nomatch stands)
        (fun _ stands => nomatch stands) (fun _ stands => nomatch stands)

theorem Sound.step (sound : Sound config) (careful : Careful config agent)
    (acts : Acts agent config.shared (config.phase agent) heap phase) :
    Sound (config.move agent heap phase) where
  published := sound.published.step careful rfl acts
  requests := sound.requests.step rfl acts
  chunks := sound.chunks.step sound.published sound.requests careful rfl acts
  blocks := sound.blocks.step sound.chunks sound.requests rfl (sound.routed.pooling agent) acts
  routed := sound.routed_step careful rfl acts

omit [DecidableEq Agent] in
/-- A known block of the pool lies in its chunk. -/
theorem Sound.inChunk (sound : Sound config) (known : Known config.shared block)
    {classIndex : Nat} (pooled : block.pooled = some classIndex) :
    InChunk config.shared block classIndex := by
  obtain ⟨isClass, size, chunk, placed⟩ := known.fromPool classIndex pooled
  have carved := sound.chunks.carved chunk classIndex placed.header
  have region := sound.carved placed.header
  have here := placed.chunkOf carved.aligned
  refine ⟨isClass, size, here ▸ placed.header, here ▸ region.2.2.1, ?_, here ▸ placed.bounds.1, ?_⟩
  · rw [here, ← region.2.2.2]
    exact carved.fits
  · rw [here, size]
    exact placed.fits

omit [DecidableEq Agent] in
/-- Two live blocks do not overlap. -/
theorem Sound.apart (sound : Sound config) (isLive : block ∈ config.shared.live) {other : Block}
    (otherLive : other ∈ config.shared.live) (differs : block ≠ other) :
    block.apartFrom other.address other.size := by
  have known := sound.blocks.known block isLive
  have otherKnown := sound.blocks.known other otherLive
  have mixed : ∀ one two, Known config.shared one → Known config.shared two →
      one.pooled.isSome = true → two.pooled = none → one.apartFrom two.address two.size := by
    intro one two oneKnown twoKnown isPooled isFallback
    have region := sound.inRegion oneKnown isPooled
    obtain ⟨classIndex, pooled⟩ := Option.isSome_iff_exists.mp isPooled
    have inChunk := sound.inChunk oneKnown pooled
    have isMapped := sound.published.atomics.inUse region.1 region.2.1
    have outside := sound.blocks.fallbackOutside two (twoKnown.fromFallback isFallback) _ isMapped
    have ends := (inChunk.fits.trans inChunk.regionEnd)
    simp only [Block.apartFrom] at outside ⊢
    omega
  cases isPooled : block.pooled with
  | none =>
      cases otherPooled : other.pooled with
      | none =>
          exact sound.blocks.fallbackApart block (known.fromFallback isPooled) other
            (otherKnown.fromFallback otherPooled) differs
      | some index =>
          exact (mixed other block otherKnown known (otherPooled ▸ rfl) isPooled).symm
  | some classIndex =>
      cases otherPooled : other.pooled with
      | none => exact mixed block other known otherKnown (isPooled ▸ rfl) otherPooled
      | some index =>
          obtain ⟨-, size, chunk, placed⟩ := known.fromPool classIndex isPooled
          obtain ⟨-, otherSize, otherChunk, otherPlaced⟩ := otherKnown.fromPool index otherPooled
          have apart : block.address ≠ other.address := fun same => differs
            (sound.blocks.oneUser block isLive other otherLive (isPooled ▸ rfl) (otherPooled ▸ rfl)
              same)
          rw [Block.apartFrom, size, otherSize]
          exact placed.apart otherPlaced (sound.chunks.carved _ _ placed.header).aligned
            (sound.chunks.carved _ _ otherPlaced.header).aligned apart

omit [DecidableEq Agent] in
theorem Sound.safe (sound : Sound config) : Safe config where
  placed := by
    intro block isLive
    have known := sound.blocks.known block isLive
    cases pooled : block.pooled with
    | none => exact Or.inl ⟨rfl, known.fromFallback pooled⟩
    | some classIndex => exact Or.inr ⟨classIndex, rfl, sound.inChunk known pooled⟩
  large := fun block isLive => (sound.blocks.known block isLive).large
  aligned := fun block isLive => (sound.blocks.known block isLive).aligned
  apart := fun block isLive other otherLive differs => sound.apart isLive otherLive differs
  listedOnce := sound.blocks.nodup
  listedApart := by
    intro agent classIndex other otherIndex address isListed otherListed
    have same := sound.blocks.oneHolder (.list agent classIndex) (.list other otherIndex) address
      isListed otherListed
    cases same
    exact ⟨rfl, rfl⟩
  listedDead := by
    intro agent classIndex block isLive isListed
    have known := sound.blocks.known block isLive
    cases pooled : block.pooled with
    | some index =>
        have holds : Holds config .user block.address := ⟨block, isLive, pooled ▸ rfl, rfl⟩
        exact nomatch sound.blocks.oneHolder (.list agent classIndex) .user block.address isListed holds
    | none =>
        obtain ⟨chunk, placed⟩ := sound.blocks.listed agent classIndex block.address isListed
        have region := sound.carved placed.header
        have carved := sound.chunks.carved chunk classIndex placed.header
        have bounds := placed.bounds
        have fits := carved.fits
        have outside := sound.outsideRegion known pooled region.1 region.2.1
          (region.2.2.1.trans ((Nat.le_add_right _ _).trans bounds.1))
        omega
  returned := by
    intro agent block isReturning
    have isFallback := sound.routed.returning agent block isReturning
    have known := sound.blocks.knownFreed agent block (congrArg Phase.freed isReturning)
    exact ⟨isFallback, known.fromFallback isFallback⟩
  kept := by
    intro agent block isPooling
    have isPooled := sound.routed.pooling agent block isPooling
    have known := sound.blocks.knownFreed agent block (congrArg Phase.freed isPooling)
    obtain ⟨classIndex, pooled⟩ := Option.isSome_iff_exists.mp isPooled
    exact ⟨classIndex, pooled, sound.inChunk known pooled⟩

/-- In every run of careful steps the pool hands out disjoint live blocks. -/
theorem disjoint_of_careful (reaches : Reaches Acts Careful initial config) : Safe config := by
  apply Sound.safe
  apply reaches.invariant sound_initial
  intro before agent heap phase sound careful acts
  exact sound.step careful acts

/-- A block for the first request of a process. -/
theorem disjoint_of_careful_first : ∃ config : Config Unit (Heap Unit) Phase,
    Reaches Acts Careful initial config ∧
      ⟨2 ^ 32 + 64, 24, 32, some 1⟩ ∈ config.shared.live ∧ Safe config := by
  have step : ∀ {config : Config Unit (Heap Unit) Phase} {heap : Heap Unit} {phase : Phase},
      Reaches Acts Careful initial config →
      (∀ requested classIndex chunk, config.phase () ≠ .fetched requested classIndex chunk false) →
      (∀ requested classIndex, config.phase () ≠ .refusing requested classIndex) →
      config.shared.regionNext + chunkSize < wordSize →
      Acts () config.shared (config.phase ()) heap phase →
      Reaches Acts Careful initial (config.move () heap phase) := by
    intro config heap phase reaches notEarly notRefusing hasRoom acts
    refine reaches.tail (Step.mk ⟨?_, fun requested classIndex stands =>
      absurd stands (notRefusing requested classIndex), fun _ _ _ => hasRoom⟩ acts)
    intro requested classIndex chunk published stands _
    cases published with
    | true => rfl
    | false => exact absurd stands (notEarly requested classIndex chunk)
  have atFirst : (0 : Nat) + chunkSize < wordSize := by decide
  have atNext : 2 ^ 32 + chunkSize < wordSize := by decide
  have afterwards : (2 ^ 32 + chunkSize) % wordSize + chunkSize < wordSize := by decide
  have choosing := step Relation.ReflTransGen.refl (fun _ _ _ stands => nomatch stands)
    (fun _ _ stands => nomatch stands) atFirst (@Acts.requestPooled Unit _ () _ 24 1 rfl)
  have loading := step choosing (fun _ _ _ stands => nomatch stands)
    (fun _ _ stands => nomatch stands) atFirst (Acts.needChunk rfl (by decide))
  have mapping := step loading (fun _ _ _ stands => nomatch stands)
    (fun _ _ stands => nomatch stands) atFirst (Acts.foundNone rfl)
  have claiming := step mapping (fun _ _ _ stands => nomatch stands)
    (fun _ _ stands => nomatch stands) atFirst (Acts.map (2 ^ 32) (by decide) (by decide)
      (fun _ isIn => nomatch isIn) (fun _ isIn => nomatch isIn))
  have claimed := step claiming (fun _ _ _ stands => nomatch stands)
    (fun _ _ stands => nomatch stands) atFirst (Acts.claim rfl)
  have stored := step claimed (fun _ _ _ stands => nomatch stands)
    (fun _ _ stands => nomatch stands) atFirst Acts.storeNext
  have published := step stored (fun _ _ _ stands => nomatch stands)
    (fun _ _ stands => nomatch stands) atNext Acts.storeEnd
  have fetched := step published (fun _ _ _ stands => nomatch stands)
    (fun _ _ stands => nomatch stands) atNext Acts.fetch
  have carving := step fetched (fun _ _ _ stands => nomatch stands)
    (fun _ _ stands => nomatch stands) afterwards (Acts.fits (by decide))
  have carved := step carving (fun _ _ _ stands => nomatch stands)
    (fun _ _ stands => nomatch stands) afterwards Acts.carve
  exact ⟨_, carved, Or.inl rfl, disjoint_of_careful carved⟩

/-- While one thread publishes the region, another takes a chunk from `REGION_NEXT` before
it is stored and measures it after `REGION_END` is: the block lies outside the region, near
address 0. -/
theorem chunk_outside_region : ∃ config : Config Bool (Heap Bool) Phase,
    Reaches Acts anyStep initial config ∧ config.shared.regionBase = 2 ^ 32 ∧
      ⟨64, 16, 16, some 0⟩ ∈ config.shared.live ∧ ¬ Safe config := by
  have start : Reaches Acts anyStep (initial : Config Bool (Heap Bool) Phase) initial :=
    Relation.ReflTransGen.refl
  have claimed := (((((start.then false (@Acts.requestPooled Bool _ false _ 16 0 rfl)).then false
    (Acts.needChunk rfl (by decide))).then false (Acts.foundNone rfl)).then false
    (Acts.map (2 ^ 32) (by decide) (by decide) (fun _ isIn => nomatch isIn)
      (fun _ isIn => nomatch isIn))).then false (Acts.claim rfl))
  have fetched := ((((claimed.then true (@Acts.requestPooled Bool _ true _ 16 0 rfl)).then true
    (Acts.needChunk rfl (by decide))).then true
    (Acts.foundRegion (by decide) (by decide))).then true Acts.fetch)
  have published := (fetched.then false Acts.storeNext).then false Acts.storeEnd
  have carved := (published.then true (Acts.fits (by decide))).then true Acts.carve
  refine ⟨_, carved, rfl, Or.inl rfl, fun safe => ?_⟩
  apply (safe.placed ⟨64, 16, 16, some 0⟩ (Or.inl rfl)).elim
  · exact fun isFallback => nomatch isFallback.1
  · intro isPooled
    obtain ⟨classIndex, -, inChunk⟩ := isPooled
    exact absurd inChunk.regionStart (by decide)

/-- A thread whose reservation fails marks the region as refused after another thread has
reserved it: a block of the pool then goes to the fallback allocator. -/
theorem pooled_returned : ∃ config : Config Bool (Heap Bool) Phase,
    Reaches Acts anyStep initial config ∧
      config.phase false = .returning ⟨2 ^ 32 + 64, 16, 16, some 0⟩ ∧ ¬ Safe config := by
  have start : Reaches Acts anyStep (initial : Config Bool (Heap Bool) Phase) initial :=
    Relation.ReflTransGen.refl
  have both := (((((start.then false (@Acts.requestPooled Bool _ false _ 16 0 rfl)).then false
    (Acts.needChunk rfl (by decide))).then false (Acts.foundNone rfl)).then true
    (@Acts.requestPooled Bool _ true _ 16 0 rfl)).then true
    (Acts.needChunk rfl (by decide))).then true (Acts.foundNone rfl)
  have published := (((both.then false (Acts.map (2 ^ 32) (by decide) (by decide)
    (fun _ isIn => nomatch isIn) (fun _ isIn => nomatch isIn))).then false
    (Acts.claim rfl)).then false Acts.storeNext).then false Acts.storeEnd
  have carved := ((published.then false Acts.fetch).then false (Acts.fits (by decide))).then false
    Acts.carve
  have refused := (carved.then true Acts.mapFails).then true Acts.refuse
  have returning := (refused.then false
    (Acts.free ⟨2 ^ 32 + 64, 16, 16, some 0⟩ (Or.inl rfl))).then false
    (Acts.noRegion (Or.inr (Or.inl rfl)))
  refine ⟨_, returning, rfl, fun safe => ?_⟩
  exact nomatch (safe.returned false ⟨2 ^ 32 + 64, 16, 16, some 0⟩ rfl).1

end Rayzor.Pool
