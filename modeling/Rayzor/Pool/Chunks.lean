import Rayzor.Pool.Region

/-!
Contract: chunks of the pool.
-/

namespace Rayzor.Pool

open Library.Interleaving

variable {Agent : Type} [DecidableEq Agent]

/-- The request that a thread is serving, and its size class. -/
def Phase.request : Phase → Option (Nat × Nat)
  | .choosing requested classIndex | .loadingBase requested classIndex
  | .mapping requested classIndex | .refusing requested classIndex
  | .claiming requested classIndex _ | .storingNext requested classIndex _
  | .storingEnd requested classIndex _ | .unmapping requested classIndex _
  | .reloadingBase requested classIndex | .fetching requested classIndex
  | .fetched requested classIndex _ _ | .carving requested classIndex _ =>
      some (requested, classIndex)
  | _ => none

/-- The size that a thread asks the fallback allocator for. -/
def Phase.fallsBack : Phase → Option (Nat × Nat)
  | .fallingBack requested size => some (requested, size)
  | _ => none

structure Requests (config : Config Agent (Heap Agent) Phase) : Prop where
  isClass : ∀ agent requested classIndex,
    (config.phase agent).request = some (requested, classIndex) →
      classOf requested = some classIndex
  large : ∀ agent requested size, (config.phase agent).fallsBack = some (requested, size) →
    requested ≤ size ∧ 0 < size

theorem blockSize_positive (classIndex : Nat) : 0 < blockSize classIndex :=
  Nat.mul_pos (Nat.succ_pos _) (by decide)

theorem le_blockSize {requested classIndex : Nat} (isClass : classOf requested = some classIndex) :
    requested ≤ blockSize classIndex ∧ classIndex < numClasses := by
  rw [classOf] at isClass
  split_ifs at isClass with isOther
  cases isClass
  simp only [blockSize, granule, numClasses, maxPooled] at isOther ⊢
  omega

variable {config : Config Agent (Heap Agent) Phase} {agent : Agent} {heap : Heap Agent}
  {before phase : Phase}

theorem Requests.kept (requests : Requests config)
    (isClass : ∀ requested classIndex, phase.request = some (requested, classIndex) →
      classOf requested = some classIndex)
    (large : ∀ requested size, phase.fallsBack = some (requested, size) →
      requested ≤ size ∧ 0 < size) : Requests (config.move agent heap phase) where
  isClass := by
    intro who requested classIndex requests'
    rw [phase_move] at requests'
    split_ifs at requests'
    · exact isClass requested classIndex requests'
    · exact requests.isClass who requested classIndex requests'
  large := by
    intro who requested size fallsBack
    rw [phase_move] at fallsBack
    split_ifs at fallsBack
    · exact large requested size fallsBack
    · exact requests.large who requested size fallsBack

theorem Requests.serves (requests : Requests config) (stands : config.phase agent = before)
    (serves : ∀ requested classIndex, phase.request = some (requested, classIndex) →
      before.request = some (requested, classIndex))
    (fallsBack : ∀ requested size, phase.fallsBack = some (requested, size) →
      ∃ classIndex, before.request = some (requested, classIndex) ∧ size = blockSize classIndex) :
    Requests (config.move agent heap phase) := by
  apply requests.kept
  · intro requested classIndex served
    apply requests.isClass agent
    rw [stands, serves requested classIndex served]
  · intro requested size falls
    obtain ⟨classIndex, served, sized⟩ := fallsBack requested size falls
    have isClass := requests.isClass agent requested classIndex (stands ▸ served)
    rw [sized]
    exact ⟨(le_blockSize isClass).1, blockSize_positive classIndex⟩

theorem Requests.step (requests : Requests config) (stands : config.phase agent = before)
    (acts : Acts agent config.shared before heap phase) :
    Requests (config.move agent heap phase) := by
  cases acts with
  | requestPooled isClass =>
      apply requests.kept
      · intro requested classIndex served
        cases served
        exact isClass
      · exact fun _ _ falls => nomatch falls
  | requestOther requested =>
      apply requests.kept
      · exact fun _ _ served => nomatch served
      · intro requested' size falls
        cases falls
        exact ⟨Nat.le_max_left _ _, Nat.lt_of_lt_of_le Nat.one_pos (Nat.le_max_right _ _)⟩
  | foundRefused | refuse | reloadedRefused | exhausted =>
      refine requests.serves stands (fun _ _ served => nomatch served) ?_
      intro requested size falls
      cases falls
      exact ⟨_, rfl, rfl⟩
  | pop | bump | malloc | mallocFails | carve | free | noRegion | above | inside | beyond | pool
  | foreign | giveBack =>
      exact requests.serves stands (fun _ _ served => nomatch served) fun _ _ falls => nomatch falls
  | needChunk | foundRegion | foundNone | map | mapFails | claim | claimFails | storeNext
  | storeEnd | unmap | reloaded | fetch | fits =>
      exact requests.serves stands (fun _ _ served => served) fun _ _ falls => nomatch falls

/-- The chunk that a thread has taken from a published `REGION_NEXT`. -/
def Phase.taken : Phase → Option Nat
  | .fetched _ _ chunk true | .carving _ _ chunk => some chunk
  | _ => none

/-- The chunk that a thread has found to fit. -/
def Phase.carves : Phase → Option Nat
  | .carving _ _ chunk => some chunk
  | _ => none

def Phase.measures : Phase → Option (Nat × Bool)
  | .fetched _ _ chunk published => some (chunk, published)
  | _ => none

/-- A chunk that is taken and not carved yet. -/
structure Fresh (heap : Heap Agent) (chunk : Nat) : Prop where
  isPublished : heap.published = true
  aligned : chunk % chunkSize = 0
  start : firstChunk heap.regionBase ≤ chunk
  before : chunk + chunkSize ≤ heap.regionNext
  noHeader : heap.header chunk = none

structure Carved (heap : Heap Agent) (chunk classIndex : Nat) : Prop where
  aligned : chunk % chunkSize = 0
  start : firstChunk heap.regionBase ≤ chunk
  before : chunk + chunkSize ≤ heap.regionNext
  fits : chunk + chunkSize ≤ heap.regionEnd
  isClass : classIndex < numClasses

structure Chunks (config : Config Agent (Heap Agent) Phase) : Prop where
  carved : ∀ chunk classIndex, config.shared.header chunk = some classIndex →
    Carved config.shared chunk classIndex
  taken : ∀ agent chunk, (config.phase agent).taken = some chunk → Fresh config.shared chunk
  takenApart : ∀ agent other chunk, (config.phase agent).taken = some chunk →
    (config.phase other).taken = some chunk → agent = other
  carving : ∀ agent chunk, (config.phase agent).carves = some chunk →
    chunk + chunkSize ≤ config.shared.regionEnd
  measured : ∀ agent chunk isPublished,
    (config.phase agent).measures = some (chunk, isPublished) → chunk + chunkSize < wordSize

omit [DecidableEq Agent] in
theorem chunks_initial : Chunks (initial : Config Agent (Heap Agent) Phase) where
  carved := fun _ _ isCarved => nomatch isCarved
  taken := fun _ _ isTaken => nomatch isTaken
  takenApart := fun _ _ _ isTaken => nomatch isTaken
  carving := fun _ _ carves => nomatch carves
  measured := fun _ _ _ measures => nomatch measures

omit [DecidableEq Agent] in
theorem requests_initial : Requests (initial : Config Agent (Heap Agent) Phase) where
  isClass := fun _ _ _ served => nomatch served
  large := fun _ _ _ falls => nomatch falls

/-- What a step has to show: the chunks carved, what its agent takes, and that the others'
chunks stay fresh. -/
theorem Chunks.kept (chunks : Chunks config)
    (carved : ∀ chunk classIndex, heap.header chunk = some classIndex →
      Carved heap chunk classIndex)
    (taken : ∀ chunk, phase.taken = some chunk → Fresh heap chunk ∧
      ∀ who, who ≠ agent → (config.phase who).taken ≠ some chunk)
    (othersTaken : ∀ who, who ≠ agent → ∀ chunk, (config.phase who).taken = some chunk →
      Fresh heap chunk)
    (carving : ∀ chunk, phase.carves = some chunk → chunk + chunkSize ≤ heap.regionEnd)
    (othersCarving : ∀ who chunk, (config.phase who).carves = some chunk →
      chunk + chunkSize ≤ heap.regionEnd)
    (measured : ∀ chunk isPublished, phase.measures = some (chunk, isPublished) →
      chunk + chunkSize < wordSize) : Chunks (config.move agent heap phase) where
  carved := carved
  taken := by
    intro who chunk isTaken
    rw [phase_move] at isTaken
    split_ifs at isTaken with same
    · exact (taken chunk isTaken).1
    · exact othersTaken who same chunk isTaken
  takenApart := by
    intro who other chunk isTaken otherTaken
    rw [phase_move] at isTaken otherTaken
    split_ifs at isTaken otherTaken with same otherSame otherSame
    · rw [same, otherSame]
    · exact absurd otherTaken ((taken chunk isTaken).2 other otherSame)
    · exact absurd isTaken ((taken chunk otherTaken).2 who same)
    · exact chunks.takenApart who other chunk isTaken otherTaken
  carving := by
    intro who chunk carves
    rw [phase_move] at carves
    split_ifs at carves with same
    · exact carving chunk carves
    · exact othersCarving who chunk carves
  measured := by
    intro who chunk isPublished measures
    rw [phase_move] at measures
    split_ifs at measures with same
    · exact measured chunk isPublished measures
    · exact chunks.measured who chunk isPublished measures

theorem Chunks.frame (chunks : Chunks config)
    (base : heap.regionBase = config.shared.regionBase)
    (next : heap.regionNext = config.shared.regionNext)
    (regionEnd : heap.regionEnd = config.shared.regionEnd)
    (isPublished : heap.published = config.shared.published)
    (header : heap.header = config.shared.header)
    (taken : phase.taken = none) (carves : phase.carves = none)
    (measures : phase.measures = none) : Chunks (config.move agent heap phase) := by
  apply chunks.kept
  · intro chunk classIndex isCarved
    have carved := chunks.carved chunk classIndex (header ▸ isCarved)
    exact ⟨carved.aligned, base ▸ carved.start, next ▸ carved.before, regionEnd ▸ carved.fits,
      carved.isClass⟩
  · intro chunk isTaken
    rw [taken] at isTaken
    cases isTaken
  · intro who _ chunk isTaken
    have fresh := chunks.taken who chunk isTaken
    exact ⟨isPublished ▸ fresh.isPublished, fresh.aligned, base ▸ fresh.start,
      next ▸ fresh.before, header ▸ fresh.noHeader⟩
  · intro chunk carves'
    rw [carves] at carves'
    cases carves'
  · exact fun who chunk carves' => regionEnd ▸ chunks.carving who chunk carves'
  · intro chunk isPublished' measures'
    rw [measures] at measures'
    cases measures'

/-- A step before `REGION_NEXT` is published, when there are no chunks yet. -/
theorem Chunks.unpublished (chunks : Chunks config) (published : Published config)
    (isUnpublished : config.shared.published = false)
    (header : heap.header = config.shared.header)
    (taken : phase.taken = none) (carves : phase.carves = none)
    (measures : phase.measures = none) : Chunks (config.move agent heap phase) := by
  have noEnd := published.atomics.noEnd isUnpublished
  have noneCarved : ∀ chunk, config.shared.regionEnd < chunk + chunkSize := by
    intro chunk
    rw [noEnd]
    exact Nat.lt_of_lt_of_le (by decide) (Nat.le_add_left chunkSize chunk)
  apply chunks.kept
  · intro chunk classIndex isCarved
    have carved := chunks.carved chunk classIndex (header ▸ isCarved)
    exact absurd carved.fits (noneCarved chunk).not_ge
  · intro chunk isTaken
    rw [taken] at isTaken
    cases isTaken
  · intro who _ chunk isTaken
    have isPublished := (chunks.taken who chunk isTaken).isPublished
    rw [isUnpublished] at isPublished
    cases isPublished
  · intro chunk carves'
    rw [carves] at carves'
    cases carves'
  · exact fun who chunk carves' => absurd (chunks.carving who chunk carves') (noneCarved chunk).not_ge
  · intro chunk isPublished' measures'
    rw [measures] at measures'
    cases measures'
variable {requested classIndex address chunk : Nat}

theorem Chunks.storeEnd (chunks : Chunks config) (published : Published config)
    (stands : config.phase agent = .storingEnd requested classIndex address) :
    Chunks (config.move agent { config.shared with regionEnd := address + regionSize }
      (.fetching requested classIndex)) := by
  have stores : (config.phase agent).storer = some (address, true) := by rw [stands]; rfl
  have noEnd := (published.storing agent address true stores).2.2.2
  have noneCarved : ∀ chunk, config.shared.regionEnd < chunk + chunkSize := by
    intro chunk
    rw [noEnd]
    exact Nat.lt_of_lt_of_le (by decide) (Nat.le_add_left chunkSize chunk)
  apply chunks.kept
  · intro chunk classIndex isCarved
    exact absurd (chunks.carved chunk classIndex isCarved).fits (noneCarved chunk).not_ge
  · exact fun _ isTaken => nomatch isTaken
  · intro who _ chunk isTaken
    have fresh := chunks.taken who chunk isTaken
    exact ⟨fresh.isPublished, fresh.aligned, fresh.start, fresh.before, fresh.noHeader⟩
  · exact fun _ carves => nomatch carves
  · exact fun who chunk carves => absurd (chunks.carving who chunk carves) (noneCarved chunk).not_ge
  · exact fun _ _ measures => nomatch measures

theorem Chunks.fetch (chunks : Chunks config) (published : Published config)
    (hasRoom : config.shared.regionNext + chunkSize < wordSize) :
    Chunks (config.move agent
      { config.shared with regionNext := (config.shared.regionNext + chunkSize) % wordSize }
      (.fetched requested classIndex config.shared.regionNext config.shared.published)) := by
  have isNext : (config.shared.regionNext + chunkSize) % wordSize =
      config.shared.regionNext + chunkSize := Nat.mod_eq_of_lt hasRoom
  have grows : config.shared.regionNext ≤ (config.shared.regionNext + chunkSize) % wordSize := by
    rw [isNext]
    exact Nat.le_add_right _ _
  have chunkPositive : 0 < chunkSize := by decide
  apply chunks.kept
  · intro chunk classIndex isCarved
    have carved := chunks.carved chunk classIndex isCarved
    exact ⟨carved.aligned, carved.start, carved.before.trans grows, carved.fits, carved.isClass⟩
  · intro chunk isTaken
    cases isPublished : config.shared.published with
    | false =>
        rw [isPublished] at isTaken
        cases isTaken
    | true =>
        rw [isPublished] at isTaken
        cases isTaken
        have nextAt := published.atomics.nextAt isPublished
        refine ⟨⟨isPublished, nextAt.2, nextAt.1, isNext.ge, ?_⟩, ?_⟩
        · cases isCarved : config.shared.header config.shared.regionNext with
          | none => rfl
          | some classIndex =>
              have before := (chunks.carved _ classIndex isCarved).before
              omega
        · intro who _ isTaken
          have before := (chunks.taken who _ isTaken).before
          omega
  · intro who _ chunk isTaken
    have fresh := chunks.taken who chunk isTaken
    exact ⟨fresh.isPublished, fresh.aligned, fresh.start, fresh.before.trans grows,
      fresh.noHeader⟩
  · exact fun _ carves => nomatch carves
  · exact chunks.carving
  · intro chunk isPublished measures
    cases measures
    exact hasRoom

theorem Chunks.fits (chunks : Chunks config) {isPublished : Bool}
    (stands : config.phase agent = .fetched requested classIndex chunk isPublished)
    (late : config.shared.regionEnd ≠ 0 → isPublished = true)
    (fits : (chunk + chunkSize) % wordSize ≤ config.shared.regionEnd) :
    Chunks (config.move agent config.shared (.carving requested classIndex chunk)) := by
  have measures : (config.phase agent).measures = some (chunk, isPublished) := by rw [stands]; rfl
  rw [Nat.mod_eq_of_lt (chunks.measured agent chunk isPublished measures)] at fits
  have ends : config.shared.regionEnd ≠ 0 := by
    have chunkPositive : 0 < chunkSize := by decide
    omega
  have isTaken : (config.phase agent).taken = some chunk := by rw [stands, late ends]; rfl
  apply chunks.kept chunks.carved
  · intro other isOther
    cases isOther
    exact ⟨chunks.taken agent chunk isTaken, fun who differs otherTaken =>
      differs (chunks.takenApart who agent chunk otherTaken isTaken)⟩
  · exact fun who _ chunk isTaken => chunks.taken who chunk isTaken
  · intro other carves
    cases carves
    exact fits
  · exact chunks.carving
  · exact fun _ _ measures => nomatch measures

/-- The header goes into a chunk that nobody else has taken. -/
theorem Chunks.carve (chunks : Chunks config) (requests : Requests config)
    (stands : config.phase agent = .carving requested classIndex chunk)
    (base : heap.regionBase = config.shared.regionBase)
    (next : heap.regionNext = config.shared.regionNext)
    (regionEnd : heap.regionEnd = config.shared.regionEnd)
    (isPublished : heap.published = config.shared.published)
    (header : heap.header = Function.update config.shared.header chunk (some classIndex)) :
    Chunks (config.move agent heap .resting) := by
  have isTaken : (config.phase agent).taken = some chunk := by rw [stands]; rfl
  have carves : (config.phase agent).carves = some chunk := by rw [stands]; rfl
  have served : (config.phase agent).request = some (requested, classIndex) := by rw [stands]; rfl
  have fresh := chunks.taken agent chunk isTaken
  apply chunks.kept
  · intro other otherIndex isCarved
    rw [header] at isCarved
    by_cases same : other = chunk
    · rw [same, Function.update_self] at isCarved
      cases isCarved
      exact ⟨same ▸ fresh.aligned, same ▸ base ▸ fresh.start, same ▸ next ▸ fresh.before,
        same ▸ regionEnd ▸ chunks.carving agent chunk carves,
        (le_blockSize (requests.isClass agent requested classIndex served)).2⟩
    · rw [Function.update_of_ne same] at isCarved
      have carved := chunks.carved other otherIndex isCarved
      exact ⟨carved.aligned, base ▸ carved.start, next ▸ carved.before, regionEnd ▸ carved.fits,
        carved.isClass⟩
  · exact fun _ isTaken => nomatch isTaken
  · intro who differs other otherTaken
    have otherFresh := chunks.taken who other otherTaken
    have apart : other ≠ chunk := fun same =>
      differs (chunks.takenApart who agent chunk (same ▸ otherTaken) isTaken)
    refine ⟨isPublished ▸ otherFresh.isPublished, otherFresh.aligned, base ▸ otherFresh.start,
      next ▸ otherFresh.before, ?_⟩
    rw [header, Function.update_of_ne apart]
    exact otherFresh.noHeader
  · exact fun _ carves => nomatch carves
  · exact fun who other carves => regionEnd ▸ chunks.carving who other carves
  · exact fun _ _ measures => nomatch measures

theorem Chunks.step (chunks : Chunks config) (published : Published config)
    (requests : Requests config) (careful : Careful config agent)
    (stands : config.phase agent = before)
    (acts : Acts agent config.shared before heap phase) :
    Chunks (config.move agent heap phase) := by
  cases acts with
  | refuse =>
      have isUnpublished := published.atomics.unpublished (careful.refusesFirst _ _ stands)
      exact chunks.unpublished published isUnpublished rfl rfl rfl rfl
  | claim noBase =>
      have isUnpublished := published.atomics.unpublished (Or.inl noBase)
      exact chunks.unpublished published isUnpublished rfl rfl rfl rfl
  | @storeNext _ _ _ _ address =>
      have stores : (config.phase agent).storer = some (address, false) := by rw [stands]; rfl
      have isUnpublished := (published.storing agent address false stores).2.2.1
      exact chunks.unpublished published isUnpublished rfl rfl rfl rfl
  | storeEnd => exact chunks.storeEnd published stands
  | fetch => exact chunks.fetch published (careful.hasRoom _ _ stands)
  | fits isIn => exact chunks.fits stands (careful.fetchesLate _ _ _ _ stands) isIn
  | carve => exact chunks.carve requests stands rfl rfl rfl rfl rfl
  | _ => exact chunks.frame rfl rfl rfl rfl rfl rfl rfl rfl

end Rayzor.Pool
