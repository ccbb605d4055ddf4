import Rayzor.Library.Interleaving

/-!
Contract: the registries of closures, keyed by code address, and the calls that change them.

Owns: aliases, entries, methods and bound thunks; the lock sections of each registration and
of an alias, in their order; lookups and the comparison of two closures; when two addresses
stand for one function, and what is then to hold (`Identity`).

Does not own: the code at an address, and who compiles it. Adapters of typed views are only
looked through by the comparison.
-/

namespace Rayzor.Closures

open Library.Interleaving

inductive Part where
  | slot
  | dynamic
  | packed
deriving DecidableEq, Repr

/-- The entries of a function by their shape, 0 where there is none. -/
abbrev Entries := Part → Nat

def noEntries : Entries := fun _ => 0

/-- A class and the name of a method -/
abbrev MethodKey := Nat × String

/-- The registries. The last four fields record the calls: the aliases that were made, and
what was registered for which address, as the caller gave it. -/
structure Registries where
  aliases : Nat → Option Nat
  hasAliases : Bool
  entries : Nat → Option Entries
  methods : MethodKey → Option Nat
  boundThunks : Nat → Bool
  made : List (Nat × Nat)
  registered : List (Nat × Part × Nat)
  bound : List Nat
  named : List (MethodKey × Nat)

def initial : Registries where
  aliases _ := none
  hasAliases := false
  entries _ := none
  methods _ := none
  boundThunks _ := false
  made := []
  registered := []
  bound := []
  named := []

/-- The aliases that the functions see -/
def visible (reg : Registries) (code : Nat) : Option Nat :=
  if reg.hasAliases then reg.aliases code else none

def canonical (reg : Registries) (code : Nat) : Nat := (visible reg code).getD code

def recordCode (reg : Registries) (record : Nat) : Nat :=
  if record = 0 then 0 else canonical reg record

/-- An entry is set, unless it is 0. -/
def put (entries : Entries) (part : Part) (value : Nat) : Entries :=
  if value = 0 then entries else Function.update entries part value

def setEntry (reg : Registries) (target code : Nat) (part : Part) (value : Nat) : Registries :=
  { reg with
    entries := Function.update reg.entries code
      (some (put ((reg.entries code).getD noEntries) part value))
    registered := if value = 0 then reg.registered else (target, part, value) :: reg.registered }

/-- The section of `haxe_closure_register_entries` -/
def registerEntries (reg : Registries) (target code slot dynamic : Nat) : Registries :=
  if code = 0 then reg
  else setEntry (setEntry reg target code .slot slot) target code .dynamic dynamic

def registerPackedEntry (reg : Registries) (target code packed : Nat) : Registries :=
  if code ≠ 0 ∧ packed ≠ 0 then setEntry reg target code .packed packed else reg

def registerBoundThunk (reg : Registries) (record code : Nat) : Registries :=
  if code = 0 then reg
  else
    { reg with
      boundThunks := Function.update reg.boundThunks code true
      bound := record :: reg.bound }

def registerMethod (reg : Registries) (key : MethodKey) (record code : Nat) : Registries :=
  if code = 0 then reg
  else
    { reg with
      methods := Function.update reg.methods key (some code)
      named := (key, record) :: reg.named }

/-- The first section of `haxe_closure_alias_code` -/
def insertAlias (reg : Registries) (stub code : Nat) : Registries :=
  { reg with
    aliases := Function.update reg.aliases stub (some code)
    made := (stub, code) :: reg.made }

def publish (reg : Registries) : Registries := { reg with hasAliases := true }

/-- What is unset in the first is taken from the second. -/
def merge (target entry : Entries) : Entries := fun part =>
  if target part = 0 then entry part else target part

def moveEntries (reg : Registries) (stub code : Nat) : Registries :=
  match reg.entries stub with
  | none => reg
  | some entry =>
      let removed := Function.update reg.entries stub none
      { reg with
        entries := Function.update removed code
          (some (merge ((removed code).getD noEntries) entry)) }

def moveMethods (reg : Registries) (stub code : Nat) : Registries :=
  { reg with
    methods := fun key => (reg.methods key).map fun c => if c = stub then code else c }

def moveBound (reg : Registries) (stub code : Nat) : Registries :=
  if reg.boundThunks stub then
    { reg with
      boundThunks := Function.update (Function.update reg.boundThunks stub false) code true }
  else reg

/-- What a thread does next. -/
inductive Phase where
  | resting
  -- `haxe_closure_register_entries`
  | entriesCalled (target slot dynamic : Nat)
  | entriesTarget (target code slot dynamic : Nat)
  | entriesSlot (target code slot dynamic : Nat)
  | entriesFound (target code slot dynamic : Nat)
  -- `haxe_closure_register_packed_entry`
  | packedCalled (target packed : Nat)
  | packedTarget (target code packed : Nat)
  | packedFound (target code packed : Nat)
  -- `haxe_closure_register_bound_thunk`
  | boundCalled (record : Nat)
  | boundFound (record code : Nat)
  -- `haxe_register_method`
  | methodCalled (key : MethodKey) (record : Nat)
  | methodFound (key : MethodKey) (record code : Nat)
  -- `haxe_closure_alias_code`
  | aliasing (stub code : Nat)
  | publishing (stub code : Nat)
  | movingEntries (stub code : Nat)
  | movingMethods (stub code : Nat)
  | movingBound (stub code : Nat)
deriving DecidableEq, Repr

/-- The steps of a thread: a call, the resolution of an address, or a lock section. -/
inductive Acts {Agent : Type} : Protocol Agent Registries Phase
  | callEntries {agent reg} (target slot dynamic : Nat) :
      Acts agent reg .resting reg (.entriesCalled target slot dynamic)
  | entriesTarget {agent reg target slot dynamic} :
      Acts agent reg (.entriesCalled target slot dynamic) reg
        (.entriesTarget target (recordCode reg target) slot dynamic)
  | entriesSlot {agent reg target code slot dynamic} :
      Acts agent reg (.entriesTarget target code slot dynamic) reg
        (.entriesSlot target code (recordCode reg slot) dynamic)
  | entriesDynamic {agent reg target code slot dynamic} :
      Acts agent reg (.entriesSlot target code slot dynamic) reg
        (.entriesFound target code slot (recordCode reg dynamic))
  | entriesWrite {agent reg target code slot dynamic} :
      Acts agent reg (.entriesFound target code slot dynamic)
        (registerEntries reg target code slot dynamic) .resting
  | callPacked {agent reg} (target packed : Nat) :
      Acts agent reg .resting reg (.packedCalled target packed)
  | packedTarget {agent reg target packed} :
      Acts agent reg (.packedCalled target packed) reg
        (.packedTarget target (recordCode reg target) packed)
  | packedEntry {agent reg target code packed} :
      Acts agent reg (.packedTarget target code packed) reg
        (.packedFound target code (recordCode reg packed))
  | packedWrite {agent reg target code packed} :
      Acts agent reg (.packedFound target code packed)
        (registerPackedEntry reg target code packed) .resting
  | callBound {agent reg} (record : Nat) : Acts agent reg .resting reg (.boundCalled record)
  | boundRecord {agent reg record} :
      Acts agent reg (.boundCalled record) reg (.boundFound record (recordCode reg record))
  | boundWrite {agent reg record code} :
      Acts agent reg (.boundFound record code) (registerBoundThunk reg record code) .resting
  | callMethod {agent reg} (key : MethodKey) (record : Nat) :
      Acts agent reg .resting reg (.methodCalled key record)
  | methodRecord {agent reg key record} :
      Acts agent reg (.methodCalled key record) reg
        (.methodFound key record (recordCode reg record))
  | methodWrite {agent reg key record code} :
      Acts agent reg (.methodFound key record code) (registerMethod reg key record code) .resting
  | callAlias {agent reg} {stub code : Nat} : stub ≠ 0 → code ≠ 0 → stub ≠ code →
      Acts agent reg .resting reg (.aliasing stub code)
  | insertAlias {agent reg stub code} :
      Acts agent reg (.aliasing stub code) (insertAlias reg stub code) (.publishing stub code)
  | publish {agent reg stub code} :
      Acts agent reg (.publishing stub code) (publish reg) (.movingEntries stub code)
  | moveEntries {agent reg stub code} :
      Acts agent reg (.movingEntries stub code) (moveEntries reg stub code)
        (.movingMethods stub code)
  | moveMethods {agent reg stub code} :
      Acts agent reg (.movingMethods stub code) (moveMethods reg stub code)
        (.movingBound stub code)
  | moveBound {agent reg stub code} :
      Acts agent reg (.movingBound stub code) (moveBound reg stub code) .resting

/-- The entries that a lookup finds: those under the address, else those of some function
that has the address as one of its entries. The order of a map's values is not defined. -/
def Lookup (reg : Registries) (code : Nat) (found : Entries) : Prop :=
  match reg.entries (canonical reg code) with
  | some entries => found = entries
  | none =>
      (∃ other, reg.entries other = some found ∧ ∃ part, found part = canonical reg code) ∨
        (found = noEntries ∧ ∀ other entries, reg.entries other = some entries →
          ∀ part, entries part ≠ canonical reg code)

/-- `haxe_closure_equals`, on a memory of words and the originals behind adapters -/
def haxeClosureEquals (reg : Registries) (word : Nat → Nat) (originals : Nat → Option Nat)
    (left right : Nat) : Bool :=
  let left := (originals left).getD left
  let right := (originals right).getD right
  if left = right then true
  else if left = 0 ∨ right = 0 then false
  else
    let code := canonical reg (word left)
    if code ≠ canonical reg (word right) then false
    else
      let leftEnv := word (left + 8)
      let rightEnv := word (right + 8)
      leftEnv == rightEnv ||
        (leftEnv != 0 && rightEnv != 0 && reg.boundThunks code && word leftEnv == word rightEnv)

/-- The addresses stand for one function: aliases that were made, in view, link them. -/
def Same (reg : Registries) : Nat → Nat → Prop :=
  Relation.EqvGen fun stub code => reg.hasAliases = true ∧ (stub, code) ∈ reg.made

/-- The address is that of an entry of some function, and not a function's own. -/
def IsEntry (reg : Registries) (code : Nat) : Prop :=
  ∃ target part, (target, part, canonical reg code) ∈ reg.registered

/-- What holds of a function by one of its addresses -/
structure IdentityAt (reg : Registries) (code : Nat) : Prop where
  /-- Its addresses look up the same. -/
  same : ∀ other, Same reg code other → ∀ found, Lookup reg code found ↔ Lookup reg other found
  /-- What is found was registered for it. -/
  found : ¬ IsEntry reg code → ∀ found, Lookup reg code found → ∀ part, found part ≠ 0 →
    ∃ target, Same reg code target ∧ (target, part, found part) ∈ reg.registered
  /-- Where something was registered for it, something is found. -/
  kept : ∀ found, Lookup reg code found → ∀ target part value,
    (target, part, value) ∈ reg.registered → Same reg code target → found part ≠ 0
  /-- Its thunks stay bound, and no others are. -/
  bound : reg.boundThunks (canonical reg code) = true ↔
    ∃ record ∈ reg.bound, Same reg code record
  /-- Closures of it with the same environment are the same. -/
  equals : ∀ word originals left right, originals left = none → originals right = none →
    left ≠ 0 → right ≠ 0 → word left = code → Same reg code (word right) →
    word (left + 8) = word (right + 8) → haxeClosureEquals reg word originals left right = true

structure Identity (reg : Registries) : Prop where
  functions : ∀ code, code ≠ 0 → IdentityAt reg code
  methods : ∀ key code, reg.methods key = some code →
    ∃ record, Same reg code record ∧ (key, record) ∈ reg.named

end Rayzor.Closures
