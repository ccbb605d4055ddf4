import Rayzor.Library.OrdMap

/-!
Contract: maps whose values may be keys again, and shortening the chains that
makes until every key leads straight to the end of its chain.

Owns: chains, ranks that bound them, the sweep over all keys that is repeated
while it changes something, and that enough sweeps leave no value that is a key.

Does not own: how the map came about, beyond each key having been inserted once
with a value that was no key at the time.
-/

namespace Rayzor.Library.Chains

universe u

variable {κ : Type u} [LinearOrder κ]

inductive Leads (map : OrdMap κ κ) : Nat → κ → κ → Prop where
  | one {key value : κ} (found : map.get? key = some value) : Leads map 1 key value
  | more {count : Nat} {key value last : κ} (found : map.get? key = some value)
      (later : Leads map count value last) : Leads map (count + 1) key last

/-- A rank that goes down along every lookup: there are no cycles. -/
structure Ranked (map : OrdMap κ κ) (rank : κ → Nat) : Prop where
  down : ∀ {key value}, map.get? key = some value → rank value < rank key
  bounded : ∀ key, rank key ≤ map.entries.length

def shorten (state : OrdMap κ κ × Bool) (key : κ) : OrdMap κ κ × Bool :=
  match state.1.get? key with
  | none => state
  | some value =>
      match state.1.get? value with
      | none => state
      | some later => if later ≠ value then (state.1.insert key later, true) else state

def sweep (map : OrdMap κ κ) : OrdMap κ κ × Bool := map.keys.foldl shorten (map, false)

/-- Sweep while something changes, up to `limit` times. -/
def close : Nat → OrdMap κ κ → OrdMap κ κ
  | 0, map => map
  | limit + 1, map =>
      let swept := sweep map
      if swept.2 then close limit swept.1 else swept.1

section Chains

variable {map : OrdMap κ κ} {rank : κ → Nat} {count : Nat} {key value last : κ}

theorem Leads.trans {count' : Nat} (first : Leads map count key value)
    (second : Leads map count' value last) : Leads map (count + count') key last := by
  induction first with
  | one found =>
      rw [Nat.add_comm]
      exact .more found second
  | more found _ ih =>
      rw [Nat.add_right_comm]
      exact .more found (ih second)

theorem Leads.isKey (leads : Leads map count key value) : ∃ next, map.get? key = some next := by
  cases leads with
  | one found => exact ⟨_, found⟩
  | more found _ => exact ⟨_, found⟩

/-- The rank goes down by at least the number of lookups. -/
theorem Leads.rank_le (ranked : Ranked map rank) (leads : Leads map count key value) :
    rank value + count ≤ rank key := by
  induction leads with
  | one found => exact ranked.down found
  | more found _ ih =>
      have step := ranked.down found
      omega

theorem Leads.positive (leads : Leads map count key value) : 0 < count := by
  cases leads <;> omega

theorem Ranked.empty : Ranked (.empty : OrdMap κ κ) fun _ => 0 where
  down := by simp
  bounded _ := Nat.zero_le _

theorem Ranked.insert (ranked : Ranked map rank) (newKey : map.get? key = none)
    (noKey : map.get? value = none) (different : value ≠ key) :
    Ranked (map.insert key value) fun reg => if reg = value then 0 else rank reg + 1 where
  down := by
    intro other next found
    rw [OrdMap.get?_insert] at found
    split_ifs at found with isNew
    · cases found
      subst isNew
      simp [Ne.symm different]
    · have notValue : other ≠ value := by
        rintro rfl
        rw [noKey] at found
        cases found
      have step := ranked.down found
      simp only [if_neg notValue]
      split_ifs <;> omega
  bounded := by
    intro other
    have grown : (map.insert key value).entries.length = map.entries.length + 1 :=
      OrdMap.length_insert_of_new map value newKey
    have bound := ranked.bounded other
    split_ifs <;> omega

end Chains

/-- Every key of the original map still has a value, some way along its chain:
at least `reach` lookups, unless the chain ends before. -/
structure Reaching (original map : OrdMap κ κ) (reach : κ → Nat) : Prop where
  keys : ∀ key, map.get? key = none ↔ original.get? key = none
  far : ∀ {key value}, map.get? key = some value →
    ∃ count, Leads original count key value ∧
      (reach key ≤ count ∨ original.get? value = none)

section Sweep

variable {original map : OrdMap κ κ} {rank : κ → Nat}

theorem Reaching.start : Reaching original original fun _ => 1 where
  keys _ := Iff.rfl
  far found := ⟨1, .one found, Or.inl (Nat.le_refl _)⟩

theorem Reaching.shorten (ranked : Ranked original rank) {reach : κ → Nat} {base : Nat}
    (changed : Bool) (reaching : Reaching original map reach) (least : ∀ key, base ≤ reach key)
    (key : κ) :
    Reaching original (shorten (map, changed) key).1
      (fun other => if other = key then 2 * base else reach other) := by
  unfold Chains.shorten
  split
  · rename_i missing
    refine ⟨reaching.keys, fun {other value} found => ?_⟩
    obtain ⟨count, leads, far⟩ := reaching.far found
    refine ⟨count, leads, ?_⟩
    split_ifs with same
    · subst same
      rw [show map.get? other = none from missing] at found
      cases found
    · exact far
  · rename_i value found
    change map.get? key = some value at found
    obtain ⟨count, leads, far⟩ := reaching.far found
    split
    · rename_i ended
      change map.get? value = none at ended
      refine ⟨reaching.keys, fun {other otherValue} otherFound => ?_⟩
      obtain ⟨otherCount, otherLeads, otherFar⟩ := reaching.far otherFound
      refine ⟨otherCount, otherLeads, ?_⟩
      split_ifs with same
      · subst same
        cases found.symm.trans otherFound
        exact Or.inr ((reaching.keys _).mp ended)
      · exact otherFar
    · rename_i later next
      change map.get? value = some later at next
      obtain ⟨count', leads', far'⟩ := reaching.far next
      have below := leads'.rank_le ranked
      have positive := leads'.positive
      have different : later ≠ value := by
        rintro rfl
        omega
      rw [if_pos different]
      constructor
      · intro other
        rw [OrdMap.get?_insert]
        split_ifs with same
        · subst same
          obtain ⟨target, isKey⟩ := leads.isKey
          simp [isKey]
        · exact reaching.keys other
      · intro other otherValue otherFound
        rw [OrdMap.get?_insert] at otherFound
        split_ifs at otherFound with same
        · subst same
          cases otherFound
          refine ⟨count + count', leads.trans leads', ?_⟩
          rw [if_pos rfl]
          rcases far' with long | ended
          · rcases far with long' | ended'
            · have first := least other
              have second := least value
              exact Or.inl (by omega)
            · obtain ⟨target, isKey⟩ := leads'.isKey
              rw [ended'] at isKey
              cases isKey
          · exact Or.inr ended
        · obtain ⟨otherCount, otherLeads, otherFar⟩ := reaching.far otherFound
          exact ⟨otherCount, otherLeads, by rwa [if_neg same]⟩

/-- Shortening keys one after another doubles how far each of them reaches. -/
theorem Reaching.foldl (ranked : Ranked original rank) {base : Nat} (keys : List κ)
    (state : OrdMap κ κ × Bool) {reach : κ → Nat} (reaching : Reaching original state.1 reach)
    (least : ∀ key, base ≤ reach key) :
    Reaching original (keys.foldl Chains.shorten state).1
      (fun key => if key ∈ keys then 2 * base else reach key) := by
  induction keys generalizing state reach with
  | nil => simpa using reaching
  | cons key rest ih =>
      rw [List.foldl_cons]
      have shortened := reaching.shorten ranked state.2 least key
      have least' : ∀ other, base ≤ if other = key then 2 * base else reach other := by
        intro other
        have lower := least other
        split_ifs <;> omega
      have folded := ih _ shortened least'
      have same : (fun other => if other ∈ rest then 2 * base
          else if other = key then 2 * base else reach other) =
          fun other => if other ∈ key :: rest then 2 * base else reach other := by
        funext other
        by_cases isKey : other = key <;> by_cases inRest : other ∈ rest <;> simp [isKey, inRest]
      rwa [same] at folded

theorem Reaching.sweep (ranked : Ranked original rank) {base : Nat}
    (reaching : Reaching original map fun _ => base) :
    Reaching original (sweep map).1 fun _ => 2 * base := by
  have folded := Reaching.foldl ranked map.keys (map, false) reaching
    (fun _ => Nat.le_refl base)
  refine ⟨folded.keys, fun {key value} found => ?_⟩
  obtain ⟨count, leads, far⟩ := folded.far found
  have isKey : key ∈ map.keys := by
    by_contra absent
    have missing : map.get? key = none := by
      by_contra present
      obtain ⟨target, isTarget⟩ := Option.ne_none_iff_exists'.mp present
      exact absent ((OrdMap.mem_keys_iff map key).mpr ⟨target, isTarget⟩)
    have noKey := (folded.keys key).mpr ((reaching.keys key).mp missing)
    exact absurd (found.symm.trans noKey) (by simp)
  rw [if_pos isKey] at far
  exact ⟨count, leads, far⟩

theorem shorten_unchanged {state : OrdMap κ κ × Bool} {key : κ}
    (unchanged : (shorten state key).2 = false) : shorten state key = state := by
  unfold shorten at unchanged ⊢
  split at unchanged
  · rfl
  · split at unchanged
    · rfl
    · split_ifs at unchanged with different
      · rw [if_neg different]

theorem foldl_unchanged {keys : List κ} {state : OrdMap κ κ × Bool}
    (unchanged : (keys.foldl shorten state).2 = false) : keys.foldl shorten state = state := by
  induction keys generalizing state with
  | nil => rfl
  | cons key rest ih =>
      rw [List.foldl_cons] at unchanged ⊢
      have later := ih unchanged
      rw [later] at unchanged ⊢
      exact shorten_unchanged unchanged

theorem Reaching.fixed (ranked : Ranked original rank) {base : Nat}
    (reaching : Reaching original map fun _ => base) (unchanged : (Chains.sweep map).2 = false)
    (times : Nat) : Reaching original map fun _ => base * 2 ^ times := by
  induction times with
  | zero => simpa using reaching
  | succ times ih =>
      have same : Chains.sweep map = (map, false) := foldl_unchanged unchanged
      have doubled := ih.sweep ranked
      rw [same] at doubled
      have power : base * 2 ^ (times + 1) = 2 * (base * 2 ^ times) := by
        rw [Nat.pow_succ]
        ring
      rwa [power]

theorem Reaching.close (ranked : Ranked original rank) (base limit : Nat)
    (reaching : Reaching original map fun _ => base)
    (enough : original.entries.length < base * 2 ^ limit) :
    ∃ reach, original.entries.length < reach ∧
      Reaching original (close limit map) fun _ => reach := by
  induction limit generalizing map base with
  | zero => exact ⟨base, by simpa using enough, reaching⟩
  | succ limit ih =>
      have swept := reaching.sweep ranked
      unfold Chains.close
      simp only
      split_ifs with changed
      · refine ih (2 * base) swept ?_
        rw [Nat.pow_succ] at enough
        calc original.entries.length < base * (2 ^ limit * 2) := enough
          _ = 2 * base * 2 ^ limit := by ring
      · have unchanged : (Chains.sweep map).2 = false := by simpa using changed
        have same : Chains.sweep map = (map, false) := foldl_unchanged unchanged
        rw [same]
        exact ⟨_, enough, reaching.fixed ranked unchanged (limit + 1)⟩

theorem close_spec {limit : Nat} (ranked : Ranked map rank)
    (enough : map.entries.length < 2 ^ limit) :
    (∀ key, (close limit map).get? key = none ↔ map.get? key = none) ∧
      ∀ {key value}, (close limit map).get? key = some value →
        map.get? value = none ∧ ∃ count, Leads map count key value := by
  obtain ⟨reach, beyond, reaching⟩ :=
    Reaching.start.close ranked 1 limit (by simpa using enough)
  refine ⟨reaching.keys, fun {key value} found => ?_⟩
  obtain ⟨count, leads, far⟩ := reaching.far found
  have below := leads.rank_le ranked
  have bounded := ranked.bounded key
  exact ⟨far.resolve_left (by omega), count, leads⟩

end Sweep

end Rayzor.Library.Chains
