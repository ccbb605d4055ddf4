import Mathlib

/-!
Contract: finite maps with a sorted association list as their only
representation, so two maps with the same lookups are equal and every walk over
a map goes in key order.

Owns: lookup, insertion, removal, update in place and restriction, each with
the lookup it leads to.

Does not own: balanced trees or any cost bound. The walk order is the one a
sorted tree map has; the shape of the tree is not observable.
-/

namespace Rayzor.Library

universe u v

/-- A finite map whose entries are listed by strictly increasing key. -/
structure OrdMap (κ : Type u) (ν : Type v) [LinearOrder κ] where
  entries : List (κ × ν)
  sorted : entries.Pairwise (fun left right => left.1 < right.1)

namespace OrdMap

variable {κ : Type u} {ν : Type v} [LinearOrder κ]

def lookup (key : κ) : List (κ × ν) → Option ν
  | [] => none
  | (other, value) :: rest => if key = other then some value else lookup key rest

def insertEntry (key : κ) (value : ν) : List (κ × ν) → List (κ × ν)
  | [] => [(key, value)]
  | (other, old) :: rest =>
      if key < other then (key, value) :: (other, old) :: rest
      else if key = other then (key, value) :: rest
      else (other, old) :: insertEntry key value rest

theorem lookup_insertEntry (key candidate : κ) (value : ν) (entries : List (κ × ν)) :
    lookup candidate (insertEntry key value entries) =
      if candidate = key then some value else lookup candidate entries := by
  induction entries with
  | nil => simp [insertEntry, lookup]
  | cons head rest ih =>
      obtain ⟨other, old⟩ := head
      by_cases before : key < other
      · simp [insertEntry, before, lookup]
      · by_cases same : key = other
        · subst same
          by_cases hit : candidate = key <;> simp [insertEntry, lookup, hit]
        · by_cases hit : candidate = other
          · subst hit
            simp [insertEntry, before, same, lookup, Ne.symm same]
          · simp [insertEntry, before, same, lookup, hit, ih]

theorem mem_insertEntry {key : κ} {value : ν} {entries : List (κ × ν)} {entry : κ × ν}
    (member : entry ∈ insertEntry key value entries) :
    entry = (key, value) ∨ entry ∈ entries := by
  induction entries with
  | nil => simpa [insertEntry] using member
  | cons head rest ih =>
      obtain ⟨other, old⟩ := head
      unfold insertEntry at member
      split_ifs at member with before same
      · simpa using member
      · rcases List.mem_cons.mp member with isNew | old
        · exact Or.inl isNew
        · exact Or.inr (List.mem_cons_of_mem _ old)
      · rcases List.mem_cons.mp member with isHead | inRest
        · exact Or.inr (by simp [isHead])
        · rcases ih inRest with isNew | old
          · exact Or.inl isNew
          · exact Or.inr (List.mem_cons_of_mem _ old)

theorem insertEntry_sorted (key : κ) (value : ν) {entries : List (κ × ν)}
    (sorted : entries.Pairwise (fun left right => left.1 < right.1)) :
    (insertEntry key value entries).Pairwise (fun left right => left.1 < right.1) := by
  induction entries with
  | nil => simp [insertEntry]
  | cons head rest ih =>
      obtain ⟨other, old⟩ := head
      obtain ⟨headBelow, restSorted⟩ := List.pairwise_cons.mp sorted
      unfold insertEntry
      split_ifs with before same
      · refine List.pairwise_cons.mpr ⟨?_, sorted⟩
        intro entry member
        rcases List.mem_cons.mp member with isHead | inRest
        · simpa [isHead] using before
        · exact lt_trans before (headBelow entry inRest)
      · subst same
        exact List.pairwise_cons.mpr ⟨headBelow, restSorted⟩
      · refine List.pairwise_cons.mpr ⟨?_, ih restSorted⟩
        intro entry member
        rcases mem_insertEntry member with isNew | inRest
        · have after : other < key := lt_of_le_of_ne (not_lt.mp before) (Ne.symm same)
          simpa [isNew] using after
        · exact headBelow entry inRest

theorem lookup_eq_some_iff {entries : List (κ × ν)}
    (sorted : entries.Pairwise (fun left right => left.1 < right.1)) (key : κ) (value : ν) :
    lookup key entries = some value ↔ (key, value) ∈ entries := by
  induction entries with
  | nil => simp [lookup]
  | cons head rest ih =>
      obtain ⟨other, old⟩ := head
      obtain ⟨headBelow, restSorted⟩ := List.pairwise_cons.mp sorted
      by_cases hit : key = other
      · subst hit
        have absent : (key, value) ∉ rest := fun member =>
          lt_irrefl key (headBelow _ member)
        simp [lookup, absent, eq_comm]
      · simp [lookup, hit, ih restSorted]

theorem entries_ext {left right : List (κ × ν)}
    (leftSorted : left.Pairwise (fun a b => a.1 < b.1))
    (rightSorted : right.Pairwise (fun a b => a.1 < b.1))
    (same : ∀ key, lookup key left = lookup key right) : left = right := by
  have members : ∀ entry : κ × ν, entry ∈ left ↔ entry ∈ right := by
    intro entry
    rw [← lookup_eq_some_iff leftSorted, ← lookup_eq_some_iff rightSorted, same]
  have strict : ∀ a b : κ × ν, a.1 < b.1 → b.1 < a.1 → a = b :=
    fun a b first second => absurd (lt_trans first second) (lt_irrefl _)
  have leftNodup : left.Nodup := leftSorted.imp (fun below equal => by
    rw [equal] at below
    exact lt_irrefl _ below)
  have rightNodup : right.Nodup := rightSorted.imp (fun below equal => by
    rw [equal] at below
    exact lt_irrefl _ below)
  exact ((List.perm_ext_iff_of_nodup leftNodup rightNodup).mpr members).eq_of_pairwise
    (fun a b _ _ => strict a b) leftSorted rightSorted

def get? (map : OrdMap κ ν) (key : κ) : Option ν := lookup key map.entries

def empty : OrdMap κ ν := ⟨[], List.Pairwise.nil⟩

def insert (map : OrdMap κ ν) (key : κ) (value : ν) : OrdMap κ ν :=
  ⟨insertEntry key value map.entries, insertEntry_sorted key value map.sorted⟩

def contains (map : OrdMap κ ν) (key : κ) : Bool := (map.get? key).isSome

def keys (map : OrdMap κ ν) : List κ := map.entries.map Prod.fst

def values (map : OrdMap κ ν) : List ν := map.entries.map Prod.snd

def filter (keep : κ → ν → Bool) (map : OrdMap κ ν) : OrdMap κ ν :=
  ⟨map.entries.filter (fun entry => keep entry.1 entry.2), map.sorted.filter _⟩

def erase (map : OrdMap κ ν) (key : κ) : OrdMap κ ν :=
  map.filter (fun other _ => other ≠ key)

def mapValues {μ : Type*} (update : κ → ν → μ) (map : OrdMap κ ν) : OrdMap κ μ :=
  ⟨map.entries.map (fun entry => (entry.1, update entry.1 entry.2)), by
    rw [List.pairwise_map]
    exact map.sorted⟩

def modify (map : OrdMap κ ν) (key : κ) (update : ν → ν) : OrdMap κ ν :=
  map.mapValues (fun other value => if other = key then update value else value)

def ofList (entries : List (κ × ν)) : OrdMap κ ν :=
  entries.foldl (fun map entry => map.insert entry.1 entry.2) empty

/-- Update every value in key order, or stop at the first that cannot be. -/
def mapValuesM {ε : Type*} {μ : Type v} (update : κ → ν → Except ε μ) (map : OrdMap κ ν) :
    Except ε (OrdMap κ μ) :=
  (map.entries.mapM fun entry => (update entry.1 entry.2).map (entry.1, ·)).map ofList

instance [DecidableEq ν] : DecidableEq (OrdMap κ ν) := fun left right =>
  decidable_of_iff (left.entries = right.entries) <| by
    cases left
    cases right
    rw [OrdMap.mk.injEq]

@[ext] theorem ext {left right : OrdMap κ ν}
    (same : ∀ key, left.get? key = right.get? key) : left = right := by
  obtain ⟨leftEntries, leftSorted⟩ := left
  obtain ⟨rightEntries, rightSorted⟩ := right
  congr 1
  exact entries_ext leftSorted rightSorted same

@[simp] theorem get?_empty (key : κ) : (empty : OrdMap κ ν).get? key = none := rfl

theorem get?_insert (map : OrdMap κ ν) (key candidate : κ) (value : ν) :
    (map.insert key value).get? candidate =
      if candidate = key then some value else map.get? candidate :=
  lookup_insertEntry key candidate value map.entries

@[simp] theorem get?_insert_self (map : OrdMap κ ν) (key : κ) (value : ν) :
    (map.insert key value).get? key = some value := by
  simp [get?_insert]

theorem get?_insert_of_ne (map : OrdMap κ ν) {key candidate : κ} (value : ν)
    (different : candidate ≠ key) :
    (map.insert key value).get? candidate = map.get? candidate := by
  simp [get?_insert, different]

theorem mem_entries_iff (map : OrdMap κ ν) (key : κ) (value : ν) :
    (key, value) ∈ map.entries ↔ map.get? key = some value :=
  (lookup_eq_some_iff map.sorted key value).symm

theorem mem_keys_iff (map : OrdMap κ ν) (key : κ) :
    key ∈ map.keys ↔ ∃ value, map.get? key = some value := by
  simp only [keys, List.mem_map, Prod.exists, ← mem_entries_iff]
  constructor
  · rintro ⟨other, value, member, rfl⟩
    exact ⟨value, member⟩
  · rintro ⟨value, member⟩
    exact ⟨key, value, member, rfl⟩

theorem mem_values_iff (map : OrdMap κ ν) (value : ν) :
    value ∈ map.values ↔ ∃ key, map.get? key = some value := by
  simp only [values, List.mem_map, Prod.exists, ← mem_entries_iff]
  constructor
  · rintro ⟨key, other, member, rfl⟩
    exact ⟨key, member⟩
  · rintro ⟨key, member⟩
    exact ⟨key, value, member, rfl⟩

theorem keys_sorted (map : OrdMap κ ν) : map.keys.Pairwise (· < ·) := by
  unfold keys
  rw [List.pairwise_map]
  exact map.sorted

theorem keys_nodup (map : OrdMap κ ν) : map.keys.Nodup :=
  map.keys_sorted.imp (fun below => ne_of_lt below)

theorem get?_mapValues {μ : Type*} (update : κ → ν → μ) (map : OrdMap κ ν) (key : κ) :
    (map.mapValues update).get? key = (map.get? key).map (update key) := by
  obtain ⟨entries, sorted⟩ := map
  simp only [mapValues, get?]
  clear sorted
  induction entries with
  | nil => rfl
  | cons head rest ih =>
      obtain ⟨other, value⟩ := head
      by_cases hit : key = other
      · subst hit
        simp [lookup]
      · simp [lookup, hit, ih]

theorem get?_modify (map : OrdMap κ ν) (key candidate : κ) (update : ν → ν) :
    (map.modify key update).get? candidate =
      if candidate = key then (map.get? candidate).map update else map.get? candidate := by
  rw [modify, get?_mapValues]
  by_cases hit : candidate = key
  · simp [hit]
  · cases map.get? candidate <;> simp [hit]

theorem get?_filter (keep : κ → ν → Bool) (map : OrdMap κ ν) (key : κ) :
    (map.filter keep).get? key = (map.get? key).filter (keep key) := by
  apply Option.ext
  intro value
  rw [← mem_entries_iff]
  simp only [filter, List.mem_filter, mem_entries_iff, Option.filter_eq_some_iff]

theorem get?_erase (map : OrdMap κ ν) (key candidate : κ) :
    (map.erase key).get? candidate = if candidate = key then none else map.get? candidate := by
  rw [erase, get?_filter]
  by_cases hit : candidate = key
  · simp [hit, Option.filter]
    cases map.get? key <;> rfl
  · simp only [hit, ne_eq, not_false_eq_true, decide_true, if_false]
    cases map.get? candidate <;> rfl

theorem contains_iff (map : OrdMap κ ν) (key : κ) :
    map.contains key = true ↔ ∃ value, map.get? key = some value := by
  simp [contains, Option.isSome_iff_exists]

theorem length_insert_of_new (map : OrdMap κ ν) {key : κ} (value : ν)
    (isNew : map.get? key = none) :
    (map.insert key value).entries.length = map.entries.length + 1 := by
  have perm : (map.insert key value).entries.Perm ((key, value) :: map.entries) := by
    have nodup : ∀ other : OrdMap κ ν, other.entries.Nodup := fun other =>
      List.Nodup.of_map Prod.fst other.keys_nodup
    have absent : (key, value) ∉ map.entries := by
      rw [mem_entries_iff, isNew]
      simp
    rw [List.perm_ext_iff_of_nodup (nodup _) (List.nodup_cons.mpr ⟨absent, nodup map⟩)]
    rintro ⟨other, found⟩
    rw [mem_entries_iff, get?_insert, List.mem_cons, mem_entries_iff, Prod.mk.injEq]
    split_ifs with same
    · subst same
      simp [isNew, eq_comm]
    · simp [same]
  rw [perm.length_eq, List.length_cons]

theorem mem_of_get?_ofList {entries : List (κ × ν)} {key : κ} {value : ν}
    (found : (ofList entries).get? key = some value) : (key, value) ∈ entries := by
  have along : ∀ (rest : List (κ × ν)) (map : OrdMap κ ν),
      (rest.foldl (fun map entry => map.insert entry.1 entry.2) map).get? key = some value →
      map.get? key = some value ∨ (key, value) ∈ rest := by
    intro rest
    induction rest with
    | nil => exact fun _ => Or.inl
    | cons entry rest ih =>
        intro map found
        rcases ih _ found with earlier | later
        · rw [get?_insert] at earlier
          split_ifs at earlier with same
          · cases earlier
            exact Or.inr (same ▸ List.mem_cons_self)
          · exact Or.inl earlier
        · exact Or.inr (List.mem_cons_of_mem _ later)
  rcases along entries empty found with earlier | member
  · cases earlier
  · exact member

theorem get?_ofList {entries : List (κ × ν)} (distinct : (entries.map Prod.fst).Nodup) {key : κ}
    {value : ν} : (ofList entries).get? key = some value ↔ (key, value) ∈ entries := by
  refine ⟨mem_of_get?_ofList, fun member => ?_⟩
  have along : ∀ (rest : List (κ × ν)) (map : OrdMap κ ν), (rest.map Prod.fst).Nodup →
      (map.get? key = some value ∧ key ∉ rest.map Prod.fst ∨ (key, value) ∈ rest) →
      (rest.foldl (fun map entry => map.insert entry.1 entry.2) map).get? key = some value := by
    intro rest
    induction rest with
    | nil => exact fun map _ placed => (placed.resolve_right List.not_mem_nil).1
    | cons entry rest ih =>
        intro map distinct placed
        rw [List.map_cons, List.nodup_cons] at distinct
        refine ih _ distinct.2 ?_
        rcases placed with ⟨already, absent⟩ | member
        · rw [List.map_cons, List.mem_cons, not_or] at absent
          exact Or.inl ⟨by rw [get?_insert_of_ne _ _ absent.1, already], absent.2⟩
        · rcases List.mem_cons.mp member with rfl | later
          · exact Or.inl ⟨get?_insert_self _ _ _, distinct.1⟩
          · exact Or.inr later
  exact along entries empty distinct (Or.inr member)

/-- A map built from entries related to those of another has related values. -/
theorem rel_get?_ofList {μ : Type v} {R : κ → ν → μ → Prop} {map : OrdMap κ ν}
    {entries' : List (κ × μ)}
    (alike : List.Forall₂ (fun entry entry' => entry'.1 = entry.1 ∧
      R entry.1 entry.2 entry'.2) map.entries entries') (key : κ) :
    Option.Rel (R key) (map.get? key) ((ofList entries').get? key) := by
  have keys : entries'.map Prod.fst = map.keys := by
    refine List.forall₂_eq_eq_eq ▸ ?_
    rw [keys, List.forall₂_map_left_iff, List.forall₂_map_right_iff]
    exact alike.flip.imp fun _ _ same => same.1
  have sorted : entries'.Pairwise fun left right => left.1 < right.1 :=
    List.pairwise_map.mp (keys ▸ map.keys_sorted)
  have found : (ofList entries').get? key = lookup key entries' := Option.ext fun value =>
    (get?_ofList (keys ▸ map.keys_nodup)).trans (lookup_eq_some_iff sorted key value).symm
  rw [found]
  unfold get?
  generalize map.entries = entries at alike
  clear keys sorted found
  induction alike with
  | nil => exact .none
  | @cons entry entry' _ _ same _ ih =>
      simp only [lookup, same.1]
      split_ifs with hit
      · exact .some (hit ▸ same.2)
      · exact ih

theorem forall₂_of_updated {ε : Type*} {μ : Type v} {update : κ → ν → Except ε μ}
    {entries : List (κ × ν)} {entries' : List (κ × μ)}
    (updated : (entries.mapM fun entry => (update entry.1 entry.2).map (entry.1, ·)) =
      .ok entries') :
    List.Forall₂ (fun entry entry' => entry'.1 = entry.1 ∧ update entry.1 entry.2 = .ok entry'.2)
      entries entries' := by
  induction entries generalizing entries' with
  | nil =>
      cases updated
      exact .nil
  | cons entry rest ih =>
      rw [List.mapM_cons] at updated
      cases first : update entry.1 entry.2 with
      | error stop =>
          rw [first] at updated
          cases updated
      | ok new =>
          rw [first] at updated
          cases later : rest.mapM fun entry => (update entry.1 entry.2).map (entry.1, ·) with
          | error stop =>
              rw [later] at updated
              cases updated
          | ok rest' =>
              rw [later] at updated
              cases updated
              exact .cons ⟨rfl, first⟩ (ih later)

section Updated

variable {ε : Type*} {μ : Type v} {update : κ → ν → Except ε μ} {map : OrdMap κ ν}
  {map' : OrdMap κ μ}

/-- Updating every value may fail; if it does not, what the new map has is what
the update makes of what the old one had. -/
theorem get?_mapValuesM (updated : map.mapValuesM update = .ok map') (key : κ) (value' : μ) :
    map'.get? key = some value' ↔
      ∃ value, map.get? key = some value ∧ update key value = .ok value' := by
  unfold mapValuesM at updated
  cases collected : map.entries.mapM
      fun entry => (update entry.1 entry.2).map (entry.1, ·) with
  | error stop =>
      rw [collected] at updated
      cases updated
  | ok entries' =>
      rw [collected] at updated
      cases updated
      have alike := rel_get?_ofList (R := fun key value value' => update key value = .ok value')
        (forall₂_of_updated collected) key
      generalize map.get? key = before at alike ⊢
      generalize (ofList entries').get? key = after at alike ⊢
      cases alike with
      | none => simp
      | some same => simp [same]

theorem update_of_mapValuesM (updated : map.mapValuesM update = .ok map') {key : κ} {value : ν}
    (found : map.get? key = some value) : ∃ value', update key value = .ok value' := by
  unfold mapValuesM at updated
  cases collected : map.entries.mapM
      fun entry => (update entry.1 entry.2).map (entry.1, ·) with
  | error stop =>
      rw [collected] at updated
      cases updated
  | ok entries' =>
      have alike := forall₂_of_updated collected
      obtain ⟨index, inside, here⟩ :=
        List.mem_iff_getElem.mp ((mem_entries_iff map key value).mpr found)
      have same := alike.get inside (alike.length_eq ▸ inside)
      simp only [List.get_eq_getElem, here] at same
      exact ⟨_, same.2⟩

end Updated

section Search

variable {ξ : Type*} (map : OrdMap κ ν) (find : ν → Option ξ)

/-- What is found under each key, in key order. -/
def finds : List (κ × ξ) :=
  map.entries.filterMap fun entry => (find entry.2).map (entry.1, ·)

theorem finds_sorted : (map.finds find).Pairwise fun left right => left.1 < right.1 := by
  refine map.sorted.filterMap _ fun left right below first isFirst second isSecond => ?_
  obtain ⟨_, -, rfl⟩ := Option.map_eq_some_iff.mp isFirst
  obtain ⟨_, -, rfl⟩ := Option.map_eq_some_iff.mp isSecond
  exact below

theorem lookup_finds (key : κ) : lookup key (map.finds find) = (map.get? key).bind find := by
  refine Option.ext fun found => ?_
  rw [lookup_eq_some_iff (map.finds_sorted find)]
  simp only [finds, List.mem_filterMap, Option.map_eq_some_iff, Prod.exists, Prod.mk.injEq,
    mem_entries_iff, Option.bind_eq_some_iff]
  constructor
  · rintro ⟨_, value, isValue, _, isFound, rfl, rfl⟩
    exact ⟨value, isValue, isFound⟩
  · rintro ⟨value, isValue, isFound⟩
    exact ⟨key, value, isValue, found, isFound, rfl, rfl⟩

theorem findSome?_values : map.values.findSome? find = ((map.finds find).map Prod.snd).head? := by
  rw [finds, List.map_filterMap, List.head?_filterMap, values, List.findSome?_map]
  refine congrArg (List.findSome? · map.entries) (funext fun entry => ?_)
  cases found : find entry.2 <;> simp [found]

end Search

theorem findSome?_values_congr {μ ξ : Type*} {map : OrdMap κ ν} {map' : OrdMap κ μ}
    {find : ν → Option ξ} {find' : μ → Option ξ}
    (same : ∀ key, (map.get? key).bind find = (map'.get? key).bind find') :
    map.values.findSome? find = map'.values.findSome? find' := by
  have alike : map.finds find = map'.finds find' := by
    refine entries_ext (map.finds_sorted find) (map'.finds_sorted find') fun key => ?_
    rw [lookup_finds, lookup_finds, same]
  rw [findSome?_values, findSome?_values, alike]

/-- Later insertions under other keys leave a key alone. -/
theorem get?_inserted_of_notMem (entries : List (κ × ν)) (map : OrdMap κ ν) {key : κ}
    (absent : key ∉ entries.map Prod.fst) :
    (entries.foldl (fun map entry => map.insert entry.1 entry.2) map).get? key = map.get? key := by
  induction entries generalizing map with
  | nil => rfl
  | cons entry rest ih =>
      rw [List.map_cons, List.mem_cons, not_or] at absent
      rw [List.foldl_cons, ih _ absent.2, get?_insert_of_ne _ _ absent.1]

theorem get?_inserted_of_agree (entries : List (κ × ν)) (map : OrdMap κ ν) {key : κ} {value : ν}
    (agree : ∀ entry ∈ entries, entry.1 = key → entry.2 = value)
    (given : map.get? key = some value ∨ key ∈ entries.map Prod.fst) :
    (entries.foldl (fun map entry => map.insert entry.1 entry.2) map).get? key = some value := by
  induction entries generalizing map with
  | nil => exact given.resolve_right List.not_mem_nil
  | cons entry rest ih =>
      refine ih _ (fun other later => agree other (List.mem_cons_of_mem _ later)) ?_
      rw [get?_insert]
      by_cases same : key = entry.1
      · rw [if_pos same, agree entry List.mem_cons_self same.symm]
        exact Or.inl rfl
      · rw [if_neg same]
        refine given.imp_right fun listed => ?_
        exact (List.mem_cons.mp listed).resolve_left same

theorem mem_keys_ofList (entries : List (κ × ν)) (key : κ) :
    key ∈ (ofList entries).keys ↔ key ∈ entries.map Prod.fst := by
  have along : ∀ map : OrdMap κ ν,
      key ∈ (entries.foldl (fun map entry => map.insert entry.1 entry.2) map).keys ↔
        key ∈ map.keys ∨ key ∈ entries.map Prod.fst := by
    induction entries with
    | nil => simp
    | cons entry rest ih =>
        intro map
        rw [List.foldl_cons, ih, List.map_cons, List.mem_cons, ← or_assoc]
        apply or_congr_left
        simp only [mem_keys_iff, get?_insert]
        by_cases same : key = entry.1
        · simp [same]
        · simp [same]
  have none : key ∉ (empty : OrdMap κ ν).keys := List.not_mem_nil
  exact (along empty).trans (or_iff_right none)

/-- All the values of each key, in the order of the list. -/
def group (entries : List (κ × ν)) : OrdMap κ (List ν) :=
  entries.foldl (fun map entry =>
    map.insert entry.1 ((map.get? entry.1).getD [] ++ [entry.2])) empty

theorem get?_grouped (entries : List (κ × ν)) (key : κ) : ∀ map : OrdMap κ (List ν),
    (entries.foldl (fun map entry =>
      map.insert entry.1 ((map.get? entry.1).getD [] ++ [entry.2])) map).get? key =
        if key ∈ entries.map Prod.fst then
          some ((map.get? key).getD [] ++ (entries.filter (·.1 = key)).map Prod.snd)
        else map.get? key := by
  induction entries with
  | nil => exact fun _ => rfl
  | cons entry rest ih =>
      intro map
      rw [List.foldl_cons, ih, get?_insert, List.map_cons]
      by_cases same : key = entry.1
      · subst same
        by_cases later : entry.1 ∈ rest.map Prod.fst
        · simp [later]
        · have none : rest.filter (·.1 = entry.1) = [] := by
            rw [List.filter_eq_nil_iff]
            intro other isOther
            rw [decide_eq_true_eq]
            exact fun isKey => later (isKey ▸ List.mem_map_of_mem isOther)
          simp [later, none]
      · have different : entry.1 ≠ key := fun isKey => same isKey.symm
        have shorter : key ∈ entry.1 :: rest.map Prod.fst ↔ key ∈ rest.map Prod.fst := by
          rw [List.mem_cons, or_iff_right same]
        rw [if_neg same, List.filter_cons_of_neg (by simpa using different)]
        exact if_congr shorter.symm rfl rfl

theorem get?_group (entries : List (κ × ν)) (key : κ) :
    (group entries).get? key = if key ∈ entries.map Prod.fst then
      some ((entries.filter (·.1 = key)).map Prod.snd) else none := by
  unfold group
  rw [get?_grouped, get?_empty, Option.getD_none, List.nil_append]

theorem getD_get?_group (entries : List (κ × ν)) (key : κ) :
    ((group entries).get? key).getD [] = (entries.filter (·.1 = key)).map Prod.snd := by
  rw [get?_group]
  split_ifs with listed
  · rfl
  · symm
    rw [Option.getD_none, List.map_eq_nil_iff, List.filter_eq_nil_iff]
    intro entry isEntry
    rw [decide_eq_true_eq]
    exact fun isKey => listed (isKey ▸ List.mem_map_of_mem isEntry)

end OrdMap

end Rayzor.Library
