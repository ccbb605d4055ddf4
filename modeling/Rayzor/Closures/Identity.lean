import Rayzor.Closures.Entries

/-!
Contract: a closure keeps one identity as long as its function is replaced at most once,
before anything is registered under the address that is replaced.
-/

namespace Rayzor.Closures

open Library.Interleaving

variable {Agent : Type} [DecidableEq Agent]

/-! ### Conditions on steps -/

/-- The address that a registration is about to write under -/
def held : Phase → Option Nat
  | .entriesTarget _ code _ _ => some code
  | .entriesSlot _ code _ _ => some code
  | .entriesFound _ code _ _ => some code
  | .packedTarget _ code _ => some code
  | .packedFound _ code _ => some code
  | .boundFound _ code => some code
  | _ => none

/-- Neither address was replaced before, and none stands for the first. -/
structure Fresh (reg : Registries) (stub code : Nat) : Prop where
  once : ∀ code', reg.aliases stub = some code' → code' = code
  isLast : reg.aliases code = none
  isFirst : ∀ stub', reg.aliases stub' ≠ some stub

/-- By a step of the agent, the alias comes in view of the functions. -/
def Appears (config : Config Agent Registries Phase) (agent : Agent) (stub code : Nat) : Prop :=
  match config.phase agent with
  | .aliasing stub' code' =>
      config.shared.hasAliases = true ∧ config.shared.aliases stub = none ∧
        stub' = stub ∧ code' = code
  | .publishing _ _ => config.shared.hasAliases = false ∧ config.shared.aliases stub = some code
  | _ => False

/-- What is registered under the one address is registered under the other as well. -/
structure Covered (reg : Registries) (stub code : Nat) : Prop where
  entries : ∀ entries part, reg.entries stub = some entries → entries part ≠ 0 →
    ∃ entries', reg.entries code = some entries' ∧ entries' part ≠ 0
  bound : reg.boundThunks stub = true → reg.boundThunks code = true

/-- Functions are replaced once, and no registration is under way for the address that is. -/
def Orderly (config : Config Agent Registries Phase) (agent : Agent) : Prop :=
  (∀ stub code, config.phase agent = .aliasing stub code → Fresh config.shared stub code) ∧
  ∀ stub code, Appears config agent stub code → ∀ other, held (config.phase other) ≠ some stub

/-- Besides, nothing is left to be moved from the address that is replaced. -/
def Careful (config : Config Agent Registries Phase) (agent : Agent) : Prop :=
  Orderly config agent ∧
  ∀ stub code, Appears config agent stub code → Covered config.shared stub code

/-! ### What is preserved -/

/-- The registries at any time of an orderly run. -/
structure Kept (reg : Registries) : Prop where
  made : ∀ stub code, (stub, code) ∈ reg.made ↔ reg.aliases stub = some code
  star : ∀ stub code, reg.aliases stub = some code →
    reg.aliases code = none ∧ stub ≠ 0 ∧ code ≠ 0
  found : ∀ other entries part, reg.entries other = some entries → entries part ≠ 0 →
    ∃ target, (target, part, entries part) ∈ reg.registered ∧
      canonical reg target = canonical reg other
  kept : ∀ target part value, (target, part, value) ∈ reg.registered →
    ∃ other entries, reg.entries other = some entries ∧ entries part ≠ 0 ∧
      canonical reg other = canonical reg target
  foundBound : ∀ other, reg.boundThunks other = true →
    ∃ record ∈ reg.bound, canonical reg record = canonical reg other
  keptBound : ∀ record ∈ reg.bound,
    ∃ other, reg.boundThunks other = true ∧ canonical reg other = canonical reg record
  named : ∀ key code, reg.methods key = some code →
    ∃ record, (key, record) ∈ reg.named ∧ canonical reg record = canonical reg code

def Stands (reg : Registries) : Phase → Prop
  | .entriesTarget target code _ _ => code ≠ 0 → visible reg code = none ∧ canonical reg target = code
  | .entriesSlot target code _ _ => code ≠ 0 → visible reg code = none ∧ canonical reg target = code
  | .entriesFound target code _ _ => code ≠ 0 → visible reg code = none ∧ canonical reg target = code
  | .packedTarget target code _ => code ≠ 0 → visible reg code = none ∧ canonical reg target = code
  | .packedFound target code _ => code ≠ 0 → visible reg code = none ∧ canonical reg target = code
  | .boundFound record code => code ≠ 0 → visible reg code = none ∧ canonical reg record = code
  | .methodFound _ record code => code ≠ 0 → canonical reg record = canonical reg code
  | .aliasing stub code => stub ≠ 0 ∧ code ≠ 0 ∧ stub ≠ code
  | .publishing stub code => reg.aliases stub = some code
  | .movingEntries stub code => reg.hasAliases = true ∧ reg.aliases stub = some code
  | .movingMethods stub code => reg.hasAliases = true ∧ reg.aliases stub = some code
  | .movingBound stub code => reg.hasAliases = true ∧ reg.aliases stub = some code
  | _ => True

/-! ### Addresses -/

variable {reg : Registries} {stub code : Nat}

theorem canonical_of_none (own : visible reg code = none) : canonical reg code = code := by
  rw [canonical, own, Option.getD_none]

theorem canonical_of_some (isStub : visible reg stub = some code) : canonical reg stub = code := by
  rw [canonical, isStub, Option.getD_some]

theorem aliases_of_visible (isStub : visible reg stub = some code) :
    reg.hasAliases = true ∧ reg.aliases stub = some code := by
  rw [visible] at isStub
  split_ifs at isStub with has
  exact ⟨has, isStub⟩

theorem visible_of_aliases (has : reg.hasAliases = true) (isStub : reg.aliases stub = some code) :
    visible reg stub = some code := by
  rw [visible, if_pos has]
  exact isStub

namespace Kept

/-- The address that functions see is no stub. -/
theorem visible_canonical (kept : Kept reg) (code : Nat) :
    visible reg (canonical reg code) = none := by
  cases isVisible : visible reg code with
  | none => rw [canonical_of_none isVisible, isVisible]
  | some target =>
      rw [canonical_of_some isVisible, visible]
      have last := (kept.star code target (aliases_of_visible isVisible).2).1
      split_ifs
      · exact last
      · rfl

theorem canonical_canonical (kept : Kept reg) (code : Nat) :
    canonical reg (canonical reg code) = canonical reg code :=
  canonical_of_none (kept.visible_canonical code)

theorem canonical_ne_zero (kept : Kept reg) (isAddress : code ≠ 0) : canonical reg code ≠ 0 := by
  cases isVisible : visible reg code with
  | none =>
      rw [canonical_of_none isVisible]
      exact isAddress
  | some target =>
      rw [canonical_of_some isVisible]
      exact (kept.star code target (aliases_of_visible isVisible).2).2.2

/-- Two addresses stand for one function when the functions see one address. -/
theorem same_iff (kept : Kept reg) (one other : Nat) :
    Same reg one other ↔ canonical reg one = canonical reg other := by
  constructor
  · intro same
    induction same with
    | rel stub code linked =>
        have isStub := (kept.made stub code).mp linked.2
        have own := kept.visible_canonical stub
        rw [canonical_of_some (visible_of_aliases linked.1 isStub)] at own ⊢
        exact (canonical_of_none own).symm
    | refl => rfl
    | symm _ _ _ ih => exact ih.symm
    | trans _ _ _ _ _ first second => exact first.trans second
  · intro seen
    have linked (code : Nat) : Same reg code (canonical reg code) := by
      cases isVisible : visible reg code with
      | none =>
          rw [canonical_of_none isVisible]
          exact .refl code
      | some target =>
          have isAlias := aliases_of_visible isVisible
          rw [canonical_of_some isVisible]
          exact .rel _ _ ⟨isAlias.1, (kept.made code target).mpr isAlias.2⟩
    exact .trans _ _ _ (linked one) (.symm _ _ (seen ▸ linked other))

end Kept

/-! ### Sections that leave the aliases alone -/

theorem put_apply (entries : Entries) (part other : Part) (value : Nat) :
    put entries part value other = if value ≠ 0 ∧ other = part then value else entries other := by
  rw [put]
  by_cases isZero : value = 0
  · rw [if_pos isZero, if_neg fun both => both.1 isZero]
  · rw [if_neg isZero, Function.update_apply]
    by_cases isPart : other = part
    · rw [if_pos isPart, if_pos ⟨isZero, isPart⟩]
    · rw [if_neg isPart, if_neg fun both => isPart both.2]

theorem put_ne_zero {entries : Entries} {part other : Part} {value : Nat}
    (isSet : entries other ≠ 0) : put entries part value other ≠ 0 := by
  rw [put_apply]
  split_ifs with both
  · exact both.1
  · exact isSet

theorem getD_ne_zero {entries : Option Entries} {part : Part}
    (isSet : (entries.getD noEntries) part ≠ 0) :
    ∃ entries', entries = some entries' ∧ entries' part = (entries.getD noEntries) part := by
  cases entries with
  | none => exact absurd rfl isSet
  | some entries' => exact ⟨entries', rfl, rfl⟩

theorem Kept.setEntry (kept : Kept reg) {target : Nat} (part : Part) (value : Nat)
    (own : visible reg code = none) (isTarget : canonical reg target = code) :
    Kept (setEntry reg target code part value) where
  made := kept.made
  star := kept.star
  found := by
    intro other entries part' isEntries isSet
    show ∃ target', (target', part', entries part') ∈ (Closures.setEntry _ _ _ _ _).registered ∧
      canonical reg target' = canonical reg other
    have more {target' : Nat} {value' : Nat} (old : (target', part', value') ∈ reg.registered) :
        (target', part', value') ∈ (Closures.setEntry reg target code part value).registered := by
      rw [Closures.setEntry]
      dsimp only
      split_ifs
      · exact old
      · exact List.mem_cons_of_mem _ old
    rw [Closures.setEntry] at isEntries
    dsimp only at isEntries
    by_cases isCode : other = code
    · rw [isCode, Function.update_self] at isEntries
      cases isEntries
      rw [put_apply] at isSet ⊢
      by_cases isNew : value ≠ 0 ∧ part' = part
      · refine ⟨target, ?_, by rw [isTarget, isCode, canonical_of_none own]⟩
        rw [if_pos isNew, Closures.setEntry, isNew.2]
        dsimp only
        rw [if_neg isNew.1]
        exact List.mem_cons_self
      · rw [if_neg isNew] at isSet ⊢
        obtain ⟨old, isOld, same⟩ := getD_ne_zero isSet
        rw [← same] at isSet ⊢
        obtain ⟨target', registered, isSame⟩ := kept.found code old part' isOld isSet
        exact ⟨target', more registered, isCode ▸ isSame⟩
    · rw [Function.update_of_ne isCode] at isEntries
      obtain ⟨target', registered, isSame⟩ := kept.found other entries part' isEntries isSet
      exact ⟨target', more registered, isSame⟩
  kept := by
    intro target' part' value' registered
    show ∃ other entries, Function.update reg.entries code _ other = some entries ∧
      entries part' ≠ 0 ∧ canonical reg other = canonical reg target'
    have old (isOld : (target', part', value') ∈ reg.registered) :
        ∃ other entries, Function.update reg.entries code
          (some (put ((reg.entries code).getD noEntries) part value)) other = some entries ∧
            entries part' ≠ 0 ∧ canonical reg other = canonical reg target' := by
      obtain ⟨other, entries, isEntries, isSet, isSame⟩ := kept.kept _ _ _ isOld
      by_cases isCode : other = code
      · rw [isCode] at isEntries isSame
        refine ⟨code, _, Function.update_self _ _ _, ?_, isSame⟩
        rw [isEntries, Option.getD_some]
        exact put_ne_zero isSet
      · exact ⟨other, entries, by rw [Function.update_of_ne isCode, isEntries], isSet, isSame⟩
    rw [Closures.setEntry] at registered
    dsimp only at registered
    split_ifs at registered with isZero
    · exact old registered
    · rcases List.mem_cons.mp registered with isNew | isOld
      · cases isNew
        refine ⟨code, _, Function.update_self _ _ _, ?_, by rw [isTarget, canonical_of_none own]⟩
        rw [put_apply, if_pos ⟨isZero, rfl⟩]
        exact isZero
      · exact old isOld
  foundBound := kept.foundBound
  keptBound := kept.keptBound
  named := kept.named

theorem Kept.registerEntries (kept : Kept reg) {target : Nat} (slot dynamic : Nat)
    (isTarget : code ≠ 0 → visible reg code = none ∧ canonical reg target = code) :
    Kept (registerEntries reg target code slot dynamic) := by
  rw [Closures.registerEntries]
  split_ifs with isZero
  · exact kept
  · obtain ⟨own, isTarget⟩ := isTarget isZero
    exact (kept.setEntry .slot slot own isTarget).setEntry .dynamic dynamic own isTarget

theorem Kept.registerPackedEntry (kept : Kept reg) {target : Nat} (packed : Nat)
    (isTarget : code ≠ 0 → visible reg code = none ∧ canonical reg target = code) :
    Kept (registerPackedEntry reg target code packed) := by
  rw [Closures.registerPackedEntry]
  split_ifs with both
  · obtain ⟨own, isTarget⟩ := isTarget both.1
    exact kept.setEntry .packed packed own isTarget
  · exact kept

theorem Kept.registerBoundThunk (kept : Kept reg) {record : Nat}
    (isTarget : code ≠ 0 → visible reg code = none ∧ canonical reg record = code) :
    Kept (registerBoundThunk reg record code) := by
  rw [Closures.registerBoundThunk]
  split_ifs with isZero
  · exact kept
  obtain ⟨own, isTarget⟩ := isTarget isZero
  refine ⟨kept.made, kept.star, kept.found, kept.kept, ?_, ?_, kept.named⟩
  · intro other isBound
    show ∃ record' ∈ record :: reg.bound, canonical reg record' = canonical reg other
    dsimp only at isBound
    by_cases isCode : other = code
    · exact ⟨record, List.mem_cons_self, by rw [isTarget, isCode, canonical_of_none own]⟩
    · rw [Function.update_of_ne isCode] at isBound
      obtain ⟨record', isRecord, isSame⟩ := kept.foundBound other isBound
      exact ⟨record', List.mem_cons_of_mem _ isRecord, isSame⟩
  · intro record' isRecord
    show ∃ other, Function.update reg.boundThunks code true other = true ∧
      canonical reg other = canonical reg record'
    rcases List.mem_cons.mp isRecord with isNew | isOld
    · exact ⟨code, Function.update_self _ _ _, by rw [isNew, isTarget, canonical_of_none own]⟩
    · obtain ⟨other, isBound, isSame⟩ := kept.keptBound record' isOld
      refine ⟨other, ?_, isSame⟩
      rw [Function.update_apply, isBound, ite_self]

theorem Kept.registerMethod (kept : Kept reg) (key : MethodKey) {record : Nat}
    (isSame : code ≠ 0 → canonical reg record = canonical reg code) :
    Kept (registerMethod reg key record code) := by
  rw [Closures.registerMethod]
  split_ifs with isZero
  · exact kept
  refine ⟨kept.made, kept.star, kept.found, kept.kept, kept.foundBound, kept.keptBound, ?_⟩
  intro key' code' isMethod
  show ∃ record', (key', record') ∈ (key, record) :: reg.named ∧
    canonical reg record' = canonical reg code'
  dsimp only at isMethod
  by_cases isKey : key' = key
  · rw [isKey, Function.update_self] at isMethod
    cases isMethod
    exact ⟨record, by rw [isKey]; exact List.mem_cons_self, isSame isZero⟩
  · rw [Function.update_of_ne isKey] at isMethod
    obtain ⟨record', isNamed, isSame⟩ := kept.named key' code' isMethod
    exact ⟨record', List.mem_cons_of_mem _ isNamed, isSame⟩

/-! ### Sections of an alias -/

theorem Kept.moveEntries (kept : Kept reg) (isStub : visible reg stub = some code) :
    Kept (moveEntries reg stub code) := by
  have apart : stub ≠ code := by
    intro same
    have last := (kept.star stub code (aliases_of_visible isStub).2).1
    rw [same] at isStub
    rw [(aliases_of_visible isStub).2] at last
    cases last
  have own : visible reg code = none := by
    have last := kept.visible_canonical stub
    rwa [canonical_of_some isStub] at last
  have isSame : canonical reg stub = canonical reg code := by
    rw [canonical_of_some isStub, canonical_of_none own]
  rw [Closures.moveEntries]
  split
  case h_1 => exact kept
  case h_2 entry isEntry =>
    dsimp only
    rw [Function.update_of_ne apart.symm]
    refine ⟨kept.made, kept.star, ?_, ?_, kept.foundBound, kept.keptBound, kept.named⟩
    · intro other entries part isEntries isSet
      show ∃ target, (target, part, entries part) ∈ reg.registered ∧
        canonical reg target = canonical reg other
      dsimp only at isEntries
      by_cases isCode : other = code
      · rw [isCode, Function.update_self] at isEntries
        cases isEntries
        rw [merge] at isSet ⊢
        split_ifs at isSet ⊢ with unset
        · obtain ⟨target, registered, isTarget⟩ := kept.found stub entry part isEntry isSet
          exact ⟨target, registered, by rw [isTarget, isSame, isCode]⟩
        · obtain ⟨old, isOld, same⟩ := getD_ne_zero isSet
          rw [← same] at isSet ⊢
          rw [isCode]
          exact kept.found code old part isOld isSet
      · rw [Function.update_of_ne isCode] at isEntries
        by_cases isMoved : other = stub
        · rw [isMoved, Function.update_self] at isEntries
          cases isEntries
        · rw [Function.update_of_ne isMoved] at isEntries
          exact kept.found other entries part isEntries isSet
    · intro target part value registered
      show ∃ other entries, Function.update (Function.update reg.entries stub none) code _ other =
        some entries ∧ entries part ≠ 0 ∧ canonical reg other = canonical reg target
      obtain ⟨other, entries, isEntries, isSet, isTarget⟩ := kept.kept target part value registered
      by_cases isCode : other = code
      · rw [isCode] at isEntries isTarget
        refine ⟨code, _, Function.update_self _ _ _, ?_, isTarget⟩
        rw [isEntries, Option.getD_some, merge, if_neg isSet]
        exact isSet
      · by_cases isMoved : other = stub
        · rw [isMoved, isEntry] at isEntries
          cases isEntries
          refine ⟨code, _, Function.update_self _ _ _, ?_, by rw [← isSame, ← isMoved, isTarget]⟩
          rw [merge]
          split_ifs with unset
          · exact isSet
          · exact unset
        · exact ⟨other, entries, by rw [Function.update_of_ne isCode,
            Function.update_of_ne isMoved, isEntries], isSet, isTarget⟩

theorem Kept.moveMethods (kept : Kept reg) (isStub : visible reg stub = some code) :
    Kept (moveMethods reg stub code) := by
  have own : visible reg code = none := by
    have last := kept.visible_canonical stub
    rwa [canonical_of_some isStub] at last
  refine ⟨kept.made, kept.star, kept.found, kept.kept, kept.foundBound, kept.keptBound, ?_⟩
  intro key code' isMethod
  show ∃ record, (key, record) ∈ reg.named ∧ canonical reg record = canonical reg code'
  obtain ⟨old, isOld, isNew⟩ := Option.map_eq_some_iff.mp isMethod
  obtain ⟨record, isNamed, isSame⟩ := kept.named key old isOld
  refine ⟨record, isNamed, ?_⟩
  rw [isSame, ← isNew]
  split_ifs with isMoved
  · rw [isMoved, canonical_of_some isStub, canonical_of_none own]
  · rfl

theorem Kept.moveBound (kept : Kept reg) (isStub : visible reg stub = some code) :
    Kept (moveBound reg stub code) := by
  have own : visible reg code = none := by
    have last := kept.visible_canonical stub
    rwa [canonical_of_some isStub] at last
  have isSame : canonical reg stub = canonical reg code := by
    rw [canonical_of_some isStub, canonical_of_none own]
  rw [Closures.moveBound]
  split_ifs with isBound
  · refine ⟨kept.made, kept.star, kept.found, kept.kept, ?_, ?_, kept.named⟩
    · intro other isSet
      show ∃ record ∈ reg.bound, canonical reg record = canonical reg other
      dsimp only at isSet
      by_cases isCode : other = code
      · rw [isCode, ← isSame]
        exact kept.foundBound stub isBound
      · rw [Function.update_of_ne isCode, Function.update_apply] at isSet
        split_ifs at isSet
        exact kept.foundBound other isSet
    · intro record isRecord
      show ∃ other, Function.update (Function.update reg.boundThunks stub false) code true other =
        true ∧ canonical reg other = canonical reg record
      obtain ⟨other, isSet, isOther⟩ := kept.keptBound record isRecord
      by_cases isMoved : other = stub
      · exact ⟨code, Function.update_self _ _ _, by rw [← isSame, ← isMoved, isOther]⟩
      · refine ⟨other, ?_, isOther⟩
        rw [Function.update_apply, Function.update_of_ne isMoved, isSet, ite_self]
  · exact kept

/-! ### Aliases that come in view -/

/-- What the functions see as one address, they go on to see as one. -/
def Coarser (reg reg' : Registries) : Prop :=
  ∀ one other, canonical reg one = canonical reg other → canonical reg' one = canonical reg' other

/-- Other aliases, of which the functions see no less -/
theorem Kept.coarsen (kept : Kept reg) {aliases : Nat → Option Nat} {hasAliases : Bool}
    {made : List (Nat × Nat)} (isMade : ∀ stub code, (stub, code) ∈ made ↔ aliases stub = some code)
    (star : ∀ stub code, aliases stub = some code → aliases code = none ∧ stub ≠ 0 ∧ code ≠ 0)
    (coarser : Coarser reg { reg with aliases, hasAliases, made }) :
    Kept { reg with aliases, hasAliases, made } where
  made := isMade
  star := star
  found := by
    intro other entries part isEntries isSet
    obtain ⟨target, registered, isSame⟩ := kept.found other entries part isEntries isSet
    exact ⟨target, registered, coarser _ _ isSame⟩
  kept := by
    intro target part value registered
    obtain ⟨other, entries, isEntries, isSet, isSame⟩ := kept.kept target part value registered
    exact ⟨other, entries, isEntries, isSet, coarser _ _ isSame⟩
  foundBound := by
    intro other isBound
    obtain ⟨record, isRecord, isSame⟩ := kept.foundBound other isBound
    exact ⟨record, isRecord, coarser _ _ isSame⟩
  keptBound := by
    intro record isRecord
    obtain ⟨other, isBound, isSame⟩ := kept.keptBound record isRecord
    exact ⟨other, isBound, coarser _ _ isSame⟩
  named := by
    intro key code isMethod
    obtain ⟨record, isNamed, isSame⟩ := kept.named key code isMethod
    exact ⟨record, isNamed, coarser _ _ isSame⟩

theorem Kept.insertAlias (kept : Kept reg) (fresh : Fresh reg stub code)
    (isAlias : stub ≠ 0 ∧ code ≠ 0 ∧ stub ≠ code) :
    Kept (insertAlias reg stub code) ∧ Coarser reg (insertAlias reg stub code) := by
  have coarser : Coarser reg (Closures.insertAlias reg stub code) := by
    intro one other isSame
    have seen (address : Nat) : canonical (Closures.insertAlias reg stub code) address =
        if reg.hasAliases = true ∧ address = stub then code else canonical reg address := by
      rw [canonical, canonical, visible, visible, Closures.insertAlias]
      dsimp only
      by_cases has : reg.hasAliases = true
      · rw [if_pos has, if_pos has, Function.update_apply]
        by_cases isStub : address = stub
        · rw [if_pos isStub, if_pos ⟨has, isStub⟩, Option.getD_some]
        · rw [if_neg isStub, if_neg fun both => isStub both.2]
      · rw [if_neg has, if_neg has, if_neg fun both => has both.1]
    have alone (address : Nat) (has : reg.hasAliases = true)
        (isStub : canonical reg address = canonical reg stub) :
        address = stub ∨ canonical reg address = code := by
      cases isVisible : visible reg stub with
      | some code' =>
          have isCode := fresh.once code' (aliases_of_visible isVisible).2
          exact Or.inr (by rw [isStub, canonical_of_some isVisible, isCode])
      | none =>
          rw [canonical_of_none isVisible] at isStub
          cases isVisible' : visible reg address with
          | none =>
              rw [canonical_of_none isVisible'] at isStub
              exact Or.inl isStub
          | some target =>
              rw [canonical_of_some isVisible'] at isStub
              rw [isStub] at isVisible'
              exact absurd (aliases_of_visible isVisible').2 (fresh.isFirst address)
    rw [seen, seen]
    split_ifs with first second second
    · rfl
    · rcases alone other first.1 (by rw [← isSame, first.2]) with isStub | isCode
      · exact absurd ⟨first.1, isStub⟩ second
      · exact isCode.symm
    · rcases alone one second.1 (by rw [isSame, second.2]) with isStub | isCode
      · exact absurd ⟨second.1, isStub⟩ first
      · exact isCode
    · exact isSame
  refine ⟨kept.coarsen ?_ ?_ coarser, coarser⟩
  · intro stub' code'
    rw [List.mem_cons, Prod.mk.injEq, kept.made, Function.update_apply]
    split_ifs with isStub
    · rw [isStub]
      constructor
      · rintro (⟨_, isCode⟩ | isOld)
        · rw [isCode]
        · rw [fresh.once code' isOld]
      · intro isCode
        exact Or.inl ⟨rfl, (Option.some.inj isCode).symm⟩
    · exact or_iff_right fun both => isStub both.1
  · intro stub' code' isOther
    rw [Function.update_apply] at isOther
    split_ifs at isOther with isStub
    · cases isOther
      rw [Function.update_of_ne isAlias.2.2.symm, isStub]
      exact ⟨fresh.isLast, isAlias.1, isAlias.2.1⟩
    · have isLast : code' ≠ stub := by
        intro same
        exact fresh.isFirst stub' (same ▸ isOther)
      rw [Function.update_of_ne isLast]
      exact kept.star stub' code' isOther

theorem Kept.publish (kept : Kept reg) : Kept (publish reg) ∧ Coarser reg (publish reg) := by
  have coarser : Coarser reg (Closures.publish reg) := by
    intro one other isSame
    cases has : reg.hasAliases with
    | true =>
        have same : Closures.publish reg = reg := by
          rw [Closures.publish, ← has]
        rw [same]
        exact isSame
    | false =>
        have own (address : Nat) : canonical reg address = address := by
          apply canonical_of_none
          rw [visible, has]
          exact if_neg Bool.false_ne_true
        rw [own, own] at isSame
        rw [isSame]
  exact ⟨kept.coarsen kept.made kept.star coarser, coarser⟩

/-! ### What the other agents rely on -/

theorem stands_frame {reg' : Registries} {phase : Phase} (stands : Stands reg phase)
    (sameAliases : reg'.aliases = reg.aliases) (sameFlag : reg'.hasAliases = reg.hasAliases) :
    Stands reg' phase := by
  have seen (address : Nat) : visible reg' address = visible reg address := by
    rw [visible, visible, sameAliases, sameFlag]
  have canonically (address : Nat) : canonical reg' address = canonical reg address := by
    rw [canonical, canonical, seen]
  cases phase <;> simp only [Stands, seen, canonically, sameAliases, sameFlag] at stands ⊢ <;>
    exact stands

theorem stands_coarser {reg' : Registries} {phase : Phase} (stands : Stands reg phase)
    (coarser : Coarser reg reg')
    (more : ∀ stub code, reg.aliases stub = some code → reg'.aliases stub = some code)
    (sameFlag : reg.hasAliases = true → reg'.hasAliases = true)
    (free : ∀ stub code, visible reg' stub = some code → visible reg stub = none →
      held phase ≠ some stub) : Stands reg' phase := by
  have holds {target code : Nat} (isHeld : held phase = some code)
      (isTarget : code ≠ 0 → visible reg code = none ∧ canonical reg target = code) :
      code ≠ 0 → visible reg' code = none ∧ canonical reg' target = code := by
    intro isAddress
    obtain ⟨own, isTarget⟩ := isTarget isAddress
    have own' : visible reg' code = none := by
      cases isVisible : visible reg' code with
      | none => rfl
      | some code' => exact absurd isHeld (free code code' isVisible own)
    have isSame := coarser target code (by rw [isTarget, canonical_of_none own])
    exact ⟨own', by rw [isSame, canonical_of_none own']⟩
  cases phase with
  | entriesTarget target code slot dynamic => exact holds rfl stands
  | entriesSlot target code slot dynamic => exact holds rfl stands
  | entriesFound target code slot dynamic => exact holds rfl stands
  | packedTarget target code packed => exact holds rfl stands
  | packedFound target code packed => exact holds rfl stands
  | boundFound record code => exact holds rfl stands
  | methodFound key record code => exact fun isAddress => coarser _ _ (stands isAddress)
  | aliasing stub code => exact stands
  | publishing stub code => exact more _ _ stands
  | movingEntries stub code => exact ⟨sameFlag stands.1, more _ _ stands.2⟩
  | movingMethods stub code => exact ⟨sameFlag stands.1, more _ _ stands.2⟩
  | movingBound stub code => exact ⟨sameFlag stands.1, more _ _ stands.2⟩
  | resting => trivial
  | entriesCalled target slot dynamic => trivial
  | packedCalled target packed => trivial
  | boundCalled record => trivial
  | methodCalled key record => trivial

/-! ### Steps -/

/-- What holds in every configuration of an orderly run. -/
structure Invariant (config : Config Agent Registries Phase) : Prop where
  kept : Kept config.shared
  stands : ∀ agent, Stands config.shared (config.phase agent)

theorem kept_initial : Kept initial where
  made _ _ := iff_of_false List.not_mem_nil (fun isAlias => nomatch isAlias)
  star _ _ isAlias := nomatch isAlias
  found _ _ _ isEntries := nomatch isEntries
  kept _ _ _ registered := absurd registered List.not_mem_nil
  foundBound _ isBound := nomatch isBound
  keptBound _ isRecord := absurd isRecord List.not_mem_nil
  named _ _ isMethod := nomatch isMethod

/-- What a resolution answers -/
theorem recordCode_stands (kept : Kept reg) (record : Nat) (isAddress : recordCode reg record ≠ 0) :
    visible reg (recordCode reg record) = none ∧ canonical reg record = recordCode reg record := by
  rw [recordCode] at isAddress ⊢
  split_ifs at isAddress ⊢
  · exact absurd rfl isAddress
  · exact ⟨kept.visible_canonical record, rfl⟩

theorem Invariant.move {config : Config Agent Registries Phase} {agent : Agent} {shared : Registries}
    {phase : Phase} (kept : Kept shared) (stands : Stands shared phase)
    (others : ∀ other, Stands shared (config.phase other)) :
    Invariant (config.move agent shared phase) := by
  refine ⟨kept, ?_⟩
  intro other
  rw [phase_move]
  split_ifs
  · exact stands
  · exact others other

/-- A section that leaves the aliases alone -/
theorem Invariant.frame {config : Config Agent Registries Phase} {agent : Agent}
    {shared : Registries} {phase : Phase} (invariant : Invariant config) (kept : Kept shared)
    (sameAliases : shared.aliases = config.shared.aliases)
    (sameFlag : shared.hasAliases = config.shared.hasAliases) (stands : Stands shared phase) :
    Invariant (config.move agent shared phase) :=
  .move kept stands fun other => stands_frame (invariant.stands other) sameAliases sameFlag

theorem aliases_registerEntries (target slot dynamic) :
    (registerEntries reg target code slot dynamic).aliases = reg.aliases ∧
      (registerEntries reg target code slot dynamic).hasAliases = reg.hasAliases := by
  rw [registerEntries]
  split_ifs <;> exact ⟨rfl, rfl⟩

theorem aliases_registerPackedEntry (target packed) :
    (registerPackedEntry reg target code packed).aliases = reg.aliases ∧
      (registerPackedEntry reg target code packed).hasAliases = reg.hasAliases := by
  rw [registerPackedEntry]
  split_ifs <;> exact ⟨rfl, rfl⟩

theorem aliases_registerBoundThunk (record) :
    (registerBoundThunk reg record code).aliases = reg.aliases ∧
      (registerBoundThunk reg record code).hasAliases = reg.hasAliases := by
  rw [registerBoundThunk]
  split_ifs <;> exact ⟨rfl, rfl⟩

theorem aliases_registerMethod (key record) :
    (registerMethod reg key record code).aliases = reg.aliases ∧
      (registerMethod reg key record code).hasAliases = reg.hasAliases := by
  rw [registerMethod]
  split_ifs <;> exact ⟨rfl, rfl⟩

theorem aliases_moveEntries : (moveEntries reg stub code).aliases = reg.aliases ∧
    (moveEntries reg stub code).hasAliases = reg.hasAliases := by
  rw [moveEntries]
  split <;> exact ⟨rfl, rfl⟩

theorem aliases_moveBound : (moveBound reg stub code).aliases = reg.aliases ∧
    (moveBound reg stub code).hasAliases = reg.hasAliases := by
  rw [moveBound]
  split_ifs <;> exact ⟨rfl, rfl⟩

omit [DecidableEq Agent] in
/-- An alias that is inserted where the functions see aliases comes in view. -/
theorem free_of_insertAlias {config : Config Agent Registries Phase} {agent : Agent}
    (isPhase : config.phase agent = .aliasing stub code) (orderly : Orderly config agent)
    (other : Agent) (stub' code' : Nat)
    (appears : visible (insertAlias config.shared stub code) stub' = some code')
    (before : visible config.shared stub' = none) : held (config.phase other) ≠ some stub' := by
  obtain ⟨has, isAlias⟩ := aliases_of_visible appears
  change Function.update config.shared.aliases stub (some code) stub' = some code' at isAlias
  change config.shared.hasAliases = true at has
  rw [visible, if_pos has] at before
  rw [Function.update_apply] at isAlias
  split_ifs at isAlias with isStub
  · cases isAlias
    apply orderly.2 stub' code
    rw [Appears, isPhase]
    exact ⟨has, before, isStub.symm, rfl⟩
  · rw [before] at isAlias
    cases isAlias

omit [DecidableEq Agent] in
/-- With the flag, all the aliases that were made come in view. -/
theorem free_of_publish {config : Config Agent Registries Phase} {agent : Agent}
    (isPhase : config.phase agent = .publishing stub code) (orderly : Orderly config agent)
    (other : Agent) (stub' code' : Nat)
    (appears : visible (publish config.shared) stub' = some code')
    (before : visible config.shared stub' = none) : held (config.phase other) ≠ some stub' := by
  obtain ⟨_, isAlias⟩ := aliases_of_visible appears
  change config.shared.aliases stub' = some code' at isAlias
  apply orderly.2 stub' code'
  rw [Appears, isPhase]
  refine ⟨?_, isAlias⟩
  rw [visible] at before
  split_ifs at before with has
  · rw [isAlias] at before
    cases before
  · exact Bool.eq_false_iff.mpr has

theorem invariant_step {config : Config Agent Registries Phase} {agent : Agent}
    {shared : Registries} {phase : Phase} (invariant : Invariant config)
    (orderly : Orderly config agent)
    (acts : Acts agent config.shared (config.phase agent) shared phase) :
    Invariant (config.move agent shared phase) := by
  have kept := invariant.kept
  have stands := invariant.stands agent
  generalize isPhase : config.phase agent = before at acts
  rw [isPhase] at stands
  cases acts with
  | callEntries target slot dynamic => exact invariant.frame kept rfl rfl trivial
  | entriesTarget => exact invariant.frame kept rfl rfl (recordCode_stands kept _)
  | entriesSlot => exact invariant.frame kept rfl rfl stands
  | entriesDynamic => exact invariant.frame kept rfl rfl stands
  | entriesWrite =>
      exact invariant.frame (kept.registerEntries _ _ stands) (aliases_registerEntries _ _ _).1
        (aliases_registerEntries _ _ _).2 trivial
  | callPacked target packed => exact invariant.frame kept rfl rfl trivial
  | packedTarget => exact invariant.frame kept rfl rfl (recordCode_stands kept _)
  | packedEntry => exact invariant.frame kept rfl rfl stands
  | packedWrite =>
      exact invariant.frame (kept.registerPackedEntry _ stands) (aliases_registerPackedEntry _ _).1
        (aliases_registerPackedEntry _ _).2 trivial
  | callBound record => exact invariant.frame kept rfl rfl trivial
  | boundRecord => exact invariant.frame kept rfl rfl (recordCode_stands kept _)
  | boundWrite =>
      exact invariant.frame (kept.registerBoundThunk stands) (aliases_registerBoundThunk _).1
        (aliases_registerBoundThunk _).2 trivial
  | callMethod key record => exact invariant.frame kept rfl rfl trivial
  | methodRecord =>
      apply invariant.frame kept rfl rfl
      intro isAddress
      obtain ⟨own, isRecord⟩ := recordCode_stands kept _ isAddress
      rw [isRecord, canonical_of_none own]
  | methodWrite =>
      exact invariant.frame (kept.registerMethod _ stands) (aliases_registerMethod _ _).1
        (aliases_registerMethod _ _).2 trivial
  | callAlias isStub isCode apart => exact invariant.frame kept rfl rfl ⟨isStub, isCode, apart⟩
  | @insertAlias _ _ stub code =>
      have fresh := orderly.1 stub code isPhase
      obtain ⟨kept', coarser⟩ := kept.insertAlias fresh stands
      refine Invariant.move kept' (Function.update_self _ _ config.shared.aliases) ?_
      intro other
      apply stands_coarser (invariant.stands other) coarser _ id
        (free_of_insertAlias isPhase orderly other)
      intro stub' code' isAlias
      show Function.update config.shared.aliases stub (some code) stub' = some code'
      rw [Function.update_apply]
      split_ifs with isStub
      · rw [isStub] at isAlias
        rw [fresh.once code' isAlias]
      · exact isAlias
  | publish =>
      obtain ⟨kept', coarser⟩ := kept.publish
      refine Invariant.move kept' (And.intro rfl stands) ?_
      intro other
      exact stands_coarser (invariant.stands other) coarser (fun _ _ => id) (fun _ => rfl)
        (free_of_publish isPhase orderly other)
  | moveEntries =>
      have isVisible := visible_of_aliases stands.1 stands.2
      refine invariant.frame (kept.moveEntries isVisible) aliases_moveEntries.1
        aliases_moveEntries.2 ?_
      exact ⟨aliases_moveEntries.2.trans stands.1,
        (congrFun aliases_moveEntries.1 _).trans stands.2⟩
  | moveMethods =>
      have isVisible := visible_of_aliases stands.1 stands.2
      exact invariant.frame (kept.moveMethods isVisible) rfl rfl stands
  | moveBound =>
      have isVisible := visible_of_aliases stands.1 stands.2
      exact invariant.frame (kept.moveBound isVisible) aliases_moveBound.1 aliases_moveBound.2 trivial

/-! ### Identity -/

/-- Nothing is left to be moved to the address that the functions see. -/
def Settled (reg : Registries) (code : Nat) : Prop :=
  ∀ stub, visible reg stub = some (canonical reg code) → Covered reg stub (canonical reg code)

theorem lookup_congr {one other : Nat} (isSame : canonical reg one = canonical reg other)
    (found : Entries) : Lookup reg one found ↔ Lookup reg other found := by
  rw [Lookup, Lookup, isSame]

/-- An address that is seen as another is a stub for it. -/
theorem visible_of_ne {other : Nat} (isSame : canonical reg other = code) (apart : other ≠ code) :
    visible reg other = some code := by
  cases isVisible : visible reg other with
  | none => exact absurd (canonical_of_none isVisible ▸ isSame) apart
  | some target => rw [← isSame, canonical_of_some isVisible]

theorem Kept.found_lookup (kept : Kept reg) {found : Entries} {part : Part} (isAddress : code ≠ 0)
    (notEntry : ¬ IsEntry reg code) (isFound : Lookup reg code found) (isSet : found part ≠ 0) :
    ∃ target, Same reg code target ∧ (target, part, found part) ∈ reg.registered := by
  rw [Lookup] at isFound
  cases isEntries : reg.entries (canonical reg code) with
  | some entries =>
      rw [isEntries] at isFound
      cases isFound
      obtain ⟨target, registered, isTarget⟩ := kept.found _ _ part isEntries isSet
      rw [kept.canonical_canonical] at isTarget
      exact ⟨target, (kept.same_iff _ _).mpr isTarget.symm, registered⟩
  | none =>
      rw [isEntries] at isFound
      rcases isFound with ⟨other, isOther, part', isPart⟩ | ⟨isNone, _⟩
      · have isValue : found part' ≠ 0 := by
          rw [isPart]
          exact kept.canonical_ne_zero isAddress
        obtain ⟨target, registered, _⟩ := kept.found other found part' isOther isValue
        rw [isPart] at registered
        exact absurd ⟨target, part', registered⟩ notEntry
      · rw [isNone] at isSet
        exact absurd rfl isSet

theorem Kept.kept_lookup (kept : Kept reg) {found : Entries} {part : Part} {target value : Nat}
    (settled : Settled reg code) (isFound : Lookup reg code found)
    (registered : (target, part, value) ∈ reg.registered) (isSame : Same reg code target) :
    found part ≠ 0 := by
  obtain ⟨other, entries, isEntries, isSet, isOther⟩ := kept.kept target part value registered
  rw [← (kept.same_iff _ _).mp isSame] at isOther
  have here : ∃ entries', reg.entries (canonical reg code) = some entries' ∧ entries' part ≠ 0 := by
    by_cases apart : other = canonical reg code
    · exact ⟨entries, by rw [← apart, isEntries], isSet⟩
    · exact (settled other (visible_of_ne isOther apart)).entries entries part isEntries isSet
  obtain ⟨entries', isEntries', isSet'⟩ := here
  rw [Lookup, isEntries'] at isFound
  rw [isFound]
  exact isSet'

theorem Kept.bound_iff (kept : Kept reg) (settled : Settled reg code) :
    reg.boundThunks (canonical reg code) = true ↔ ∃ record ∈ reg.bound, Same reg code record := by
  constructor
  · intro isBound
    obtain ⟨record, isRecord, isSame⟩ := kept.foundBound _ isBound
    rw [kept.canonical_canonical] at isSame
    exact ⟨record, isRecord, (kept.same_iff _ _).mpr isSame.symm⟩
  · rintro ⟨record, isRecord, isSame⟩
    obtain ⟨other, isBound, isOther⟩ := kept.keptBound record isRecord
    rw [← (kept.same_iff _ _).mp isSame] at isOther
    by_cases apart : other = canonical reg code
    · rw [← apart, isBound]
    · exact (settled other (visible_of_ne isOther apart)).bound isBound

theorem haxeClosureEquals_same {word : Nat → Nat} {originals : Nat → Option Nat} {left right : Nat}
    (isLeft : originals left = none) (isRight : originals right = none) (leftRecord : left ≠ 0)
    (rightRecord : right ≠ 0) (isSame : canonical reg (word left) = canonical reg (word right))
    (sameEnv : word (left + 8) = word (right + 8)) :
    haxeClosureEquals reg word originals left right = true := by
  rw [haxeClosureEquals, isLeft, isRight, Option.getD_none, Option.getD_none]
  dsimp only
  by_cases same : left = right
  · rw [if_pos same]
  · rw [if_neg same, if_neg (not_or_intro leftRecord rightRecord),
      if_neg (not_not_intro isSame), sameEnv, beq_self_eq_true, Bool.true_or]

/-- A function to whose address nothing is left to be moved keeps its identity. -/
theorem Kept.identityAt (kept : Kept reg) (isAddress : code ≠ 0) (settled : Settled reg code) :
    IdentityAt reg code where
  same other isSame := lookup_congr ((kept.same_iff _ _).mp isSame)
  found notEntry _ isFound _ isSet := kept.found_lookup isAddress notEntry isFound isSet
  kept _ isFound _ _ _ registered isSame := kept.kept_lookup settled isFound registered isSame
  bound := kept.bound_iff settled
  equals := by
    intro word originals left right isLeft isRight leftRecord rightRecord isCode isSame sameEnv
    rw [← isCode] at isSame
    exact haxeClosureEquals_same isLeft isRight leftRecord rightRecord
      ((kept.same_iff _ _).mp isSame) sameEnv

theorem Kept.methods (kept : Kept reg) (key : MethodKey) (code : Nat)
    (isMethod : reg.methods key = some code) :
    ∃ record, Same reg code record ∧ (key, record) ∈ reg.named := by
  obtain ⟨record, isNamed, isSame⟩ := kept.named key code isMethod
  exact ⟨record, (kept.same_iff _ _).mpr isSame.symm, isNamed⟩

/-! ### Nothing left to be moved -/

def AllCovered (reg : Registries) : Prop :=
  ∀ stub code, visible reg stub = some code → Covered reg stub code

theorem AllCovered.setEntry (covered : AllCovered reg) (target : Nat) (part : Part) (value : Nat)
    (own : visible reg code = none) : AllCovered (setEntry reg target code part value) := by
  intro stub' code' isVisible
  change visible reg stub' = some code' at isVisible
  have apart : stub' ≠ code := by
    intro same
    rw [same, own] at isVisible
    cases isVisible
  have before := covered stub' code' isVisible
  refine ⟨?_, before.bound⟩
  intro entries part' isEntries isSet
  change Function.update reg.entries code _ stub' = some entries at isEntries
  rw [Function.update_of_ne apart] at isEntries
  obtain ⟨entries', isEntries', isSet'⟩ := before.entries entries part' isEntries isSet
  show ∃ entries', Function.update reg.entries code _ code' = some entries' ∧ entries' part' ≠ 0
  by_cases isCode : code' = code
  · rw [isCode] at isEntries' ⊢
    refine ⟨_, Function.update_self _ _ _, ?_⟩
    rw [isEntries', Option.getD_some]
    exact put_ne_zero isSet'
  · exact ⟨entries', by rw [Function.update_of_ne isCode, isEntries'], isSet'⟩

theorem AllCovered.registerEntries (covered : AllCovered reg) (target slot dynamic : Nat)
    (own : code ≠ 0 → visible reg code = none) :
    AllCovered (registerEntries reg target code slot dynamic) := by
  rw [Closures.registerEntries]
  split_ifs with isZero
  · exact covered
  · exact (covered.setEntry target .slot slot (own isZero)).setEntry target .dynamic dynamic
      (own isZero)

theorem AllCovered.registerPackedEntry (covered : AllCovered reg) (target packed : Nat)
    (own : code ≠ 0 → visible reg code = none) :
    AllCovered (registerPackedEntry reg target code packed) := by
  rw [Closures.registerPackedEntry]
  split_ifs with both
  · exact covered.setEntry target .packed packed (own both.1)
  · exact covered

theorem AllCovered.registerBoundThunk (covered : AllCovered reg) (record : Nat)
    (own : code ≠ 0 → visible reg code = none) :
    AllCovered (registerBoundThunk reg record code) := by
  rw [Closures.registerBoundThunk]
  split_ifs with isZero
  · exact covered
  intro stub' code' isVisible
  have before := covered stub' code' isVisible
  refine ⟨before.entries, ?_⟩
  intro isBound
  have apart : stub' ≠ code := by
    intro same
    change visible reg stub' = some code' at isVisible
    rw [same, own isZero] at isVisible
    cases isVisible
  change Function.update reg.boundThunks code true stub' = true at isBound
  show Function.update reg.boundThunks code true code' = true
  rw [Function.update_of_ne apart] at isBound
  rw [Function.update_apply, before.bound isBound, ite_self]

theorem AllCovered.registerMethod (covered : AllCovered reg) (key : MethodKey) (record : Nat) :
    AllCovered (registerMethod reg key record code) := by
  rw [Closures.registerMethod]
  split_ifs
  · exact covered
  · exact fun stub' code' isVisible => ⟨(covered stub' code' isVisible).entries,
      (covered stub' code' isVisible).bound⟩

theorem AllCovered.moveEntries (covered : AllCovered reg) (kept : Kept reg)
    (isStub : visible reg stub = some code) : AllCovered (moveEntries reg stub code) := by
  have own := kept.visible_canonical stub
  rw [canonical_of_some isStub] at own
  rw [Closures.moveEntries]
  split
  case h_1 => exact covered
  case h_2 entry isEntry =>
    intro stub' code' isVisible
    change visible reg stub' = some code' at isVisible
    have before := covered stub' code' isVisible
    refine ⟨?_, before.bound⟩
    intro entries part isEntries isSet
    dsimp only at isEntries ⊢
    have notCode : stub' ≠ code := by
      intro same
      rw [same, own] at isVisible
      cases isVisible
    have notStub : stub' ≠ stub := by
      intro same
      rw [Function.update_of_ne notCode, same, Function.update_self] at isEntries
      cases isEntries
    have notMoved : code' ≠ stub := by
      intro same
      have last := kept.visible_canonical stub'
      rw [canonical_of_some isVisible, same, isStub] at last
      cases last
    rw [Function.update_of_ne notCode, Function.update_of_ne notStub] at isEntries
    obtain ⟨entries', isEntries', isSet'⟩ := before.entries entries part isEntries isSet
    by_cases isCode : code' = code
    · rw [isCode] at isEntries' notMoved ⊢
      refine ⟨_, Function.update_self _ _ _, ?_⟩
      rw [Function.update_of_ne notMoved, isEntries', Option.getD_some, merge, if_neg isSet']
      exact isSet'
    · exact ⟨entries', by rw [Function.update_of_ne isCode, Function.update_of_ne notMoved,
        isEntries'], isSet'⟩

theorem AllCovered.moveBound (covered : AllCovered reg) (kept : Kept reg)
    (isStub : visible reg stub = some code) : AllCovered (moveBound reg stub code) := by
  have own := kept.visible_canonical stub
  rw [canonical_of_some isStub] at own
  rw [Closures.moveBound]
  split_ifs with isBound
  · intro stub' code' isVisible
    change visible reg stub' = some code' at isVisible
    have before := covered stub' code' isVisible
    refine ⟨before.entries, ?_⟩
    intro isSet
    dsimp only at isSet ⊢
    have notCode : stub' ≠ code := by
      intro same
      rw [same, own] at isVisible
      cases isVisible
    have notMoved : code' ≠ stub := by
      intro same
      have last := kept.visible_canonical stub'
      rw [canonical_of_some isVisible, same, isStub] at last
      cases last
    rw [Function.update_of_ne notCode, Function.update_apply] at isSet
    split_ifs at isSet with isMoved
    rw [Function.update_apply, Function.update_of_ne notMoved, before.bound isSet, ite_self]
  · exact covered

omit [DecidableEq Agent] in
/-- A careful step leaves nothing to be moved. -/
theorem allCovered_step {config : Config Agent Registries Phase} {agent : Agent}
    {shared : Registries} {phase : Phase} (invariant : Invariant config)
    (covered : AllCovered config.shared) (careful : Careful config agent)
    (acts : Acts agent config.shared (config.phase agent) shared phase) : AllCovered shared := by
  have stands := invariant.stands agent
  generalize isPhase : config.phase agent = before at acts
  rw [isPhase] at stands
  cases acts with
  | callEntries target slot dynamic => exact covered
  | entriesTarget => exact covered
  | entriesSlot => exact covered
  | entriesDynamic => exact covered
  | entriesWrite => exact covered.registerEntries _ _ _ fun isAddress => (stands isAddress).1
  | callPacked target packed => exact covered
  | packedTarget => exact covered
  | packedEntry => exact covered
  | packedWrite => exact covered.registerPackedEntry _ _ fun isAddress => (stands isAddress).1
  | callBound record => exact covered
  | boundRecord => exact covered
  | boundWrite => exact covered.registerBoundThunk _ fun isAddress => (stands isAddress).1
  | callMethod key record => exact covered
  | methodRecord => exact covered
  | methodWrite => exact covered.registerMethod _ _
  | callAlias isStub isCode apart => exact covered
  | @insertAlias _ _ stub code =>
      intro stub' code' isVisible
      obtain ⟨has, isAlias⟩ := aliases_of_visible isVisible
      change config.shared.hasAliases = true at has
      change Function.update config.shared.aliases stub (some code) stub' = some code' at isAlias
      cases isBefore : config.shared.aliases stub' with
      | none =>
          rw [Function.update_apply] at isAlias
          split_ifs at isAlias with isStub
          · cases isAlias
            have appears : Appears config agent stub' code := by
              rw [Appears, isPhase]
              exact ⟨has, isBefore, isStub.symm, rfl⟩
            exact ⟨(careful.2 _ _ appears).entries, (careful.2 _ _ appears).bound⟩
          · rw [isBefore] at isAlias
            cases isAlias
      | some old =>
          have isOld : old = code' := by
            rw [Function.update_apply] at isAlias
            split_ifs at isAlias with isStub
            · cases isAlias
              rw [isStub] at isBefore
              exact (careful.1.1 stub code isPhase).once old isBefore
            · rw [isBefore] at isAlias
              exact Option.some.inj isAlias
          have before := covered stub' code' (isOld ▸ visible_of_aliases has isBefore)
          exact ⟨before.entries, before.bound⟩
  | publish =>
      intro stub' code' isVisible
      obtain ⟨_, isAlias⟩ := aliases_of_visible isVisible
      change config.shared.aliases stub' = some code' at isAlias
      cases has : config.shared.hasAliases with
      | true =>
          have before := covered stub' code' (visible_of_aliases has isAlias)
          exact ⟨before.entries, before.bound⟩
      | false =>
          have appears : Appears config agent stub' code' := by
            rw [Appears, isPhase]
            exact ⟨has, isAlias⟩
          exact ⟨(careful.2 _ _ appears).entries, (careful.2 _ _ appears).bound⟩
  | moveEntries =>
      exact covered.moveEntries invariant.kept (visible_of_aliases stands.1 stands.2)
  | moveMethods =>
      intro stub' code' isVisible
      exact ⟨(covered stub' code' isVisible).entries, (covered stub' code' isVisible).bound⟩
  | moveBound =>
      exact covered.moveBound invariant.kept (visible_of_aliases stands.1 stands.2)

/-! ### Runs -/

/-- Before any call -/
def fresh : Config Agent Registries Phase := ⟨initial, fun _ => .resting⟩

theorem invariant_of_orderly {config : Config Agent Registries Phase}
    (reaches : Reaches Acts Orderly fresh config) : Invariant config :=
  reaches.invariant ⟨kept_initial, fun _ => trivial⟩ fun _ _ _ _ => invariant_step

def replaced : Registries := publish (insertAlias initial 1 2)

end Rayzor.Closures
