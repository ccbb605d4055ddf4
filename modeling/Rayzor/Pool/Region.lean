import Rayzor.Pool.ObjectPool

/-!
Contract: the region of the pool, from its reservation to its chunks.

Owns: the steps that the pool is right about (`Careful`); who publishes the three
atomics; and that every chunk is carved once, inside the region.
-/

namespace Rayzor.Pool

open Library.Interleaving

variable {Agent : Type} [DecidableEq Agent]

/-- The steps that the pool is right about. -/
structure Careful (config : Config Agent (Heap Agent) Phase) (agent : Agent) : Prop where
  /-- A chunk taken before `REGION_NEXT` was published is not measured against a published
  `REGION_END`. -/
  fetchesLate : ∀ requested classIndex chunk published,
    config.phase agent = .fetched requested classIndex chunk published →
      config.shared.regionEnd ≠ 0 → published = true
  /-- A reservation that fails does not follow one that succeeded. -/
  refusesFirst : ∀ requested classIndex, config.phase agent = .refusing requested classIndex →
    config.shared.regionBase = 0 ∨ config.shared.regionBase = refused
  /-- `REGION_NEXT` has room for one more chunk. -/
  hasRoom : ∀ requested classIndex, config.phase agent = .fetching requested classIndex →
    config.shared.regionNext + chunkSize < wordSize

/-- Who has claimed the region and publishes it, and whether `REGION_NEXT` is stored. -/
def Phase.storer : Phase → Option (Nat × Bool)
  | .storingNext _ _ address => some (address, false)
  | .storingEnd _ _ address => some (address, true)
  | _ => none

/-- Who has a reservation of its own. -/
def Phase.claims : Phase → Option Nat
  | .claiming _ _ address | .unmapping _ _ address => some address
  | _ => none

structure Atomics (heap : Heap Agent) : Prop where
  unpublished : heap.regionBase = 0 ∨ heap.regionBase = refused → heap.published = false
  noEnd : heap.published = false → heap.regionEnd = 0
  endAt : heap.regionEnd ≠ 0 → heap.regionEnd = heap.regionBase + regionSize
  nextAt : heap.published = true →
    firstChunk heap.regionBase ≤ heap.regionNext ∧ heap.regionNext % chunkSize = 0
  inUse : heap.regionBase ≠ 0 → heap.regionBase ≠ refused → heap.regionBase ∈ heap.mapped
  range : ∀ address ∈ heap.mapped, 0 < address ∧ address + regionSize < wordSize

structure Published (config : Config Agent (Heap Agent) Phase) : Prop where
  atomics : Atomics config.shared
  storing : ∀ agent address late, (config.phase agent).storer = some (address, late) →
    address ∈ config.shared.mapped ∧ config.shared.regionBase = address ∧
      config.shared.published = late ∧ config.shared.regionEnd = 0
  oneStorer : ∀ agent other stored otherStored, (config.phase agent).storer = some stored →
    (config.phase other).storer = some otherStored → agent = other
  claimed : ∀ agent address, (config.phase agent).claims = some address →
    address ∈ config.shared.mapped ∧ address ≠ config.shared.regionBase
  claimedApart : ∀ agent other address, (config.phase agent).claims = some address →
    (config.phase other).claims = some address → agent = other

omit [DecidableEq Agent] in
theorem published_initial : Published (initial : Config Agent (Heap Agent) Phase) where
  atomics := {
    unpublished := fun _ => rfl
    noEnd := fun _ => rfl
    endAt := fun ends => absurd rfl ends
    nextAt := fun isPublished => Bool.noConfusion isPublished
    inUse := fun isUsed => absurd rfl isUsed
    range := fun _ isIn => absurd isIn (Set.notMem_empty _) }
  storing := fun _ _ _ stores => nomatch stores
  oneStorer := fun _ _ _ _ stores => nomatch stores
  claimed := fun _ _ claims => nomatch claims
  claimedApart := fun _ _ _ claims => nomatch claims

omit [DecidableEq Agent] in
/-- A reservation is neither nothing nor a refusal. -/
theorem Atomics.ne_of_mapped {heap : Heap Agent} (atomics : Atomics heap) {address : Nat}
    (isMapped : address ∈ heap.mapped) : address ≠ 0 ∧ address ≠ refused := by
  have range := atomics.range address isMapped
  simp only [refused, wordSize, regionSize] at range ⊢
  omega

variable {config : Config Agent (Heap Agent) Phase} {agent : Agent} {heap : Heap Agent}
  {before phase : Phase}

omit [DecidableEq Agent] in
/-- Nobody publishes a region that nobody has claimed. -/
theorem Published.noStorer (published : Published config)
    (noBase : config.shared.regionBase = 0 ∨ config.shared.regionBase = refused) (who : Agent)
    (stored : Nat × Bool) : (config.phase who).storer ≠ some stored := by
  intro stores
  have storing := published.storing who stored.1 stored.2 stores
  have proper := published.atomics.ne_of_mapped storing.1
  rw [storing.2.1] at noBase
  exact noBase.elim proper.1 proper.2

/-- What a step has to show: that the atomics stay right, that its agent is the only one to
publish or to hold a reservation, and that the others may go on. -/
theorem Published.kept (published : Published config) (atomics : Atomics heap)
    (storing : ∀ address late, phase.storer = some (address, late) →
      (address ∈ heap.mapped ∧ heap.regionBase = address ∧ heap.published = late ∧
        heap.regionEnd = 0) ∧ ∀ who, who ≠ agent → ∀ stored, (config.phase who).storer ≠ some stored)
    (othersStoring : ∀ who, who ≠ agent → ∀ address late,
      (config.phase who).storer = some (address, late) → address ∈ heap.mapped ∧
        heap.regionBase = address ∧ heap.published = late ∧ heap.regionEnd = 0)
    (claimed : ∀ address, phase.claims = some address →
      (address ∈ heap.mapped ∧ address ≠ heap.regionBase) ∧
        ∀ who, who ≠ agent → (config.phase who).claims ≠ some address)
    (othersClaimed : ∀ who, who ≠ agent → ∀ address, (config.phase who).claims = some address →
      address ∈ heap.mapped ∧ address ≠ heap.regionBase) :
    Published (config.move agent heap phase) where
  atomics := atomics
  storing := by
    intro who address late stores
    rw [phase_move] at stores
    split_ifs at stores with same
    · exact (storing address late stores).1
    · exact othersStoring who same address late stores
  oneStorer := by
    intro who other stored otherStored stores otherStores
    rw [phase_move] at stores otherStores
    split_ifs at stores otherStores with same otherSame otherSame
    · rw [same, otherSame]
    · exact absurd otherStores ((storing _ _ stores).2 other otherSame _)
    · exact absurd stores ((storing _ _ otherStores).2 who same _)
    · exact published.oneStorer who other stored otherStored stores otherStores
  claimed := by
    intro who address claims
    rw [phase_move] at claims
    split_ifs at claims with same
    · exact (claimed address claims).1
    · exact othersClaimed who same address claims
  claimedApart := by
    intro who other address claims otherClaims
    rw [phase_move] at claims otherClaims
    split_ifs at claims otherClaims with same otherSame otherSame
    · rw [same, otherSame]
    · exact absurd otherClaims ((claimed address claims).2 other otherSame)
    · exact absurd claims ((claimed address otherClaims).2 who same)
    · exact published.claimedApart who other address claims otherClaims

/-- A step that leaves the atomics and the reservations, and publishes and claims nothing. -/
theorem Published.frame (published : Published config)
    (base : heap.regionBase = config.shared.regionBase)
    (next : heap.regionNext = config.shared.regionNext)
    (regionEnd : heap.regionEnd = config.shared.regionEnd)
    (isPublished : heap.published = config.shared.published)
    (mapped : heap.mapped = config.shared.mapped)
    (storer : phase.storer = none) (claims : phase.claims = none) :
    Published (config.move agent heap phase) := by
  have atomics := published.atomics
  apply published.kept
  · constructor <;> simp only [base, next, regionEnd, isPublished, mapped]
    · exact atomics.unpublished
    · exact atomics.noEnd
    · exact atomics.endAt
    · exact atomics.nextAt
    · exact atomics.inUse
    · exact atomics.range
  · intro address late stores
    rw [storer] at stores
    cases stores
  · intro who _ address late stores
    rw [base, regionEnd, isPublished, mapped]
    exact published.storing who address late stores
  · intro address claimsIt
    rw [claims] at claimsIt
    cases claimsIt
  · intro who _ address claimsIt
    rw [base, mapped]
    exact published.claimed who address claimsIt

variable {requested classIndex address : Nat}

theorem Published.map (published : Published config) (positive : 0 < address)
    (range : address + regionSize < wordSize)
    (apart : ∀ start ∈ config.shared.mapped,
      start + regionSize ≤ address ∨ address + regionSize ≤ start) :
    Published (config.move agent
      { config.shared with mapped := insert address config.shared.mapped }
      (.claiming requested classIndex address)) := by
  have atomics := published.atomics
  have isNew : address ∉ config.shared.mapped := by
    intro isMapped
    have overlaps := apart address isMapped
    simp only [regionSize] at overlaps
    omega
  have differs : address ≠ config.shared.regionBase := by
    intro same
    apply isNew
    rw [same]
    apply atomics.inUse
    · omega
    · simp only [refused, wordSize, regionSize] at range ⊢
      omega
  apply published.kept
  · exact ⟨atomics.unpublished, atomics.noEnd, atomics.endAt, atomics.nextAt,
      fun isBase isProper => Or.inr (atomics.inUse isBase isProper),
      fun start isIn => isIn.elim (fun same => same ▸ ⟨positive, range⟩) (atomics.range start)⟩
  · exact fun _ _ stores => nomatch stores
  · intro who _ start late stores
    have storing := published.storing who start late stores
    exact ⟨Or.inr storing.1, storing.2⟩
  · intro start claims
    cases claims
    exact ⟨⟨Or.inl rfl, differs⟩, fun who _ claims =>
      isNew (published.claimed who address claims).1⟩
  · intro who _ start claims
    have claimed := published.claimed who start claims
    exact ⟨Or.inr claimed.1, claimed.2⟩

theorem Published.refuse (published : Published config)
    (noBase : config.shared.regionBase = 0 ∨ config.shared.regionBase = refused) {size : Nat} :
    Published (config.move agent { config.shared with regionBase := refused }
      (.fallingBack requested size)) := by
  have atomics := published.atomics
  have isUnpublished := atomics.unpublished noBase
  have noEnd := atomics.noEnd isUnpublished
  apply published.kept
  · refine ⟨fun _ => isUnpublished, atomics.noEnd, fun ends => absurd noEnd ends, ?_,
      fun _ isProper => absurd rfl isProper, atomics.range⟩
    intro isPublished
    rw [isUnpublished] at isPublished
    cases isPublished
  · exact fun _ _ stores => nomatch stores
  · exact fun who _ start late stores => absurd stores (published.noStorer noBase who _)
  · exact fun _ claims => nomatch claims
  · intro who _ start claims
    have claimed := published.claimed who start claims
    exact ⟨claimed.1, (atomics.ne_of_mapped claimed.1).2⟩

theorem Published.claim (published : Published config)
    (stands : config.phase agent = .claiming requested classIndex address)
    (noBase : config.shared.regionBase = 0) :
    Published (config.move agent { config.shared with regionBase := address }
      (.storingNext requested classIndex address)) := by
  have atomics := published.atomics
  have isUnpublished := atomics.unpublished (Or.inl noBase)
  have noEnd := atomics.noEnd isUnpublished
  have holds : (config.phase agent).claims = some address := by rw [stands]; rfl
  have isMapped := (published.claimed agent address holds).1
  apply published.kept
  · refine ⟨fun _ => isUnpublished, atomics.noEnd, fun ends => absurd noEnd ends, ?_,
      fun _ _ => isMapped, atomics.range⟩
    intro isPublished
    rw [isUnpublished] at isPublished
    cases isPublished
  · intro start late stores
    cases stores
    exact ⟨⟨isMapped, rfl, isUnpublished, noEnd⟩, fun who _ =>
      published.noStorer (Or.inl noBase) who⟩
  · exact fun who _ start late stores => absurd stores (published.noStorer (Or.inl noBase) who _)
  · exact fun _ claims => nomatch claims
  · intro who differs start claims
    refine ⟨(published.claimed who start claims).1, fun same => differs ?_⟩
    exact published.claimedApart who agent start claims (same ▸ holds)

theorem Published.claimFails (published : Published config)
    (stands : config.phase agent = .claiming requested classIndex address) :
    Published (config.move agent config.shared (.unmapping requested classIndex address)) := by
  have holds : (config.phase agent).claims = some address := by rw [stands]; rfl
  apply published.kept published.atomics
  · exact fun _ _ stores => nomatch stores
  · exact fun who _ start late stores => published.storing who start late stores
  · intro start claims
    cases claims
    refine ⟨published.claimed agent address holds, fun who differs otherHolds => differs ?_⟩
    exact published.claimedApart who agent address otherHolds holds
  · exact fun who _ start claims => published.claimed who start claims

theorem Published.unmap (published : Published config)
    (stands : config.phase agent = .unmapping requested classIndex address) :
    Published (config.move agent
      { config.shared with mapped := config.shared.mapped \ {address} }
      (.reloadingBase requested classIndex)) := by
  have atomics := published.atomics
  have holds : (config.phase agent).claims = some address := by rw [stands]; rfl
  have notBase := (published.claimed agent address holds).2
  apply published.kept
  · exact ⟨atomics.unpublished, atomics.noEnd, atomics.endAt, atomics.nextAt,
      fun isBase isProper => ⟨atomics.inUse isBase isProper, fun same => notBase same.symm⟩,
      fun start isIn => atomics.range start isIn.1⟩
  · exact fun _ _ stores => nomatch stores
  · intro who _ start late stores
    have storing := published.storing who start late stores
    exact ⟨⟨storing.1, fun same => notBase (same ▸ storing.2.1.symm)⟩, storing.2⟩
  · exact fun _ claims => nomatch claims
  · intro who differs start claims
    have claimed := published.claimed who start claims
    refine ⟨⟨claimed.1, fun same => differs ?_⟩, claimed.2⟩
    exact published.claimedApart who agent start claims (same ▸ holds)

theorem Published.storeNext (published : Published config)
    (stands : config.phase agent = .storingNext requested classIndex address) :
    Published (config.move agent
      { config.shared with regionNext := firstChunk address, published := true }
      (.storingEnd requested classIndex address)) := by
  have atomics := published.atomics
  have stores : (config.phase agent).storer = some (address, false) := by rw [stands]; rfl
  have storing := published.storing agent address false stores
  have proper := atomics.ne_of_mapped storing.1
  apply published.kept
  · refine ⟨fun noBase => ?_, fun isUnpublished => Bool.noConfusion isUnpublished,
      fun ends => absurd storing.2.2.2 ends, fun _ => ⟨?_, Nat.mul_mod_left _ _⟩, atomics.inUse,
      atomics.range⟩
    · rw [storing.2.1] at noBase
      exact absurd noBase (not_or.mpr proper)
    · exact (congrArg firstChunk storing.2.1).le
  · intro start late storesLate
    cases storesLate
    exact ⟨⟨storing.1, storing.2.1, rfl, storing.2.2.2⟩, fun who differs stored otherStores =>
      differs (published.oneStorer who agent _ _ otherStores stores)⟩
  · exact fun who differs start late otherStores =>
      absurd (published.oneStorer who agent _ _ otherStores stores) differs
  · exact fun _ claims => nomatch claims
  · exact fun who _ start claims => published.claimed who start claims

theorem Published.storeEnd (published : Published config)
    (stands : config.phase agent = .storingEnd requested classIndex address) :
    Published (config.move agent { config.shared with regionEnd := address + regionSize }
      (.fetching requested classIndex)) := by
  have atomics := published.atomics
  have stores : (config.phase agent).storer = some (address, true) := by rw [stands]; rfl
  have storing := published.storing agent address true stores
  apply published.kept
  · refine ⟨atomics.unpublished, fun isUnpublished => ?_, fun _ => ?_, atomics.nextAt,
      atomics.inUse, atomics.range⟩
    · exact absurd storing.2.2.1 (Bool.eq_false_iff.mp isUnpublished)
    · exact congrArg (· + regionSize) storing.2.1.symm
  · exact fun _ _ stores => nomatch stores
  · exact fun who differs start late otherStores =>
      absurd (published.oneStorer who agent _ _ otherStores stores) differs
  · exact fun _ claims => nomatch claims
  · exact fun who _ start claims => published.claimed who start claims

theorem Published.fetch (published : Published config)
    (hasRoom : config.shared.regionNext + chunkSize < wordSize) {isPublished : Bool} :
    Published (config.move agent
      { config.shared with regionNext := (config.shared.regionNext + chunkSize) % wordSize }
      (.fetched requested classIndex config.shared.regionNext isPublished)) := by
  have atomics := published.atomics
  apply published.kept
  · refine ⟨atomics.unpublished, atomics.noEnd, atomics.endAt, fun isPublished => ?_,
      atomics.inUse, atomics.range⟩
    have nextAt := atomics.nextAt isPublished
    rw [Nat.mod_eq_of_lt hasRoom]
    exact ⟨nextAt.1.trans (Nat.le_add_right _ _), (Nat.add_mod_right _ _).trans nextAt.2⟩
  · exact fun _ _ stores => nomatch stores
  · exact fun who _ start late stores => published.storing who start late stores
  · exact fun _ claims => nomatch claims
  · exact fun who _ start claims => published.claimed who start claims

theorem Published.step (published : Published config) (careful : Careful config agent)
    (stands : config.phase agent = before)
    (acts : Acts agent config.shared before heap phase) :
    Published (config.move agent heap phase) := by
  cases acts with
  | map address positive range _ apart => exact published.map positive range apart
  | refuse => exact published.refuse (careful.refusesFirst _ _ stands)
  | claim noBase => exact published.claim stands noBase
  | claimFails => exact published.claimFails stands
  | storeNext => exact published.storeNext stands
  | storeEnd => exact published.storeEnd stands
  | unmap => exact published.unmap stands
  | fetch => exact published.fetch (careful.hasRoom _ _ stands)
  | _ => exact published.frame rfl rfl rfl rfl rfl rfl rfl

end Rayzor.Pool
