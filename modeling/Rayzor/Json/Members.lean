import Rayzor.Json.Grammar

/-!
Contract: the objects that the parser builds from members.
-/

namespace Rayzor.Json

open Library

/-- The name under which a member is set. -/
def storedName (name : Bytes) : Bytes := Utf8.lossy (name.take (truncated name.length))

theorem storedName_short {name : List Char} (short : (Utf8.encode name).length < 2 ^ 32) :
    storedName (Utf8.encode name) = Utf8.encode name := by
  rw [storedName, truncated, Nat.mod_eq_of_lt short, List.take_length, Utf8.lossy_encode]

theorem length_storedName (name : List Char) :
    (storedName (Utf8.encode name)).length ≤ (Utf8.encode name).length % 2 ^ 32 + 2 :=
  Utf8.length_lossy_take name _

/-- The longest of some names keeps its place only when it is short. -/
theorem short_of_stored {names : List (List Char)}
    (kept : ∀ name, (∃ other ∈ names, storedName (Utf8.encode other) = name) ↔
      ∃ other ∈ names, Utf8.encode other = name) :
    ∀ name ∈ names, (Utf8.encode name).length < 2 ^ 32 := by
  by_contra long
  rw [not_forall] at long
  obtain ⟨name, isLong⟩ := long
  rw [Classical.not_imp, Nat.not_lt] at isLong
  obtain ⟨isIn, isLong⟩ := isLong
  obtain ⟨longest, isLongest, atMost⟩ := names.toFinset.exists_max_image
    (fun name => (Utf8.encode name).length) ⟨name, List.mem_toFinset.mpr isIn⟩
  have above := atMost name (List.mem_toFinset.mpr isIn)
  obtain ⟨source, isSource, same⟩ :=
    (kept (Utf8.encode longest)).mpr ⟨longest, List.mem_toFinset.mp isLongest, rfl⟩
  have below := atMost source (List.mem_toFinset.mpr isSource)
  have bound := length_storedName source
  rw [same] at bound
  by_cases short : (Utf8.encode source).length < 2 ^ 32
  · rw [storedName_short short] at same
    rw [same] at short
    omega
  · omega

/-- The fields after setting entries in turn. -/
def setFields (entries : List (Bytes × Dynamic)) (fields : Fields) : Fields :=
  entries.foldl (fun fields entry => setField fields entry.1 entry.2) fields

theorem nodup_setFields : ∀ (entries : List (Bytes × Dynamic)) {fields : Fields},
    (fields.map Prod.fst).Nodup → ((setFields entries fields).map Prod.fst).Nodup
  | [], _, distinct => distinct
  | _ :: entries, _, distinct => nodup_setFields entries (nodup_insert _ _ distinct)

theorem mem_names_insert (name other : Bytes) (slot : Slot Dynamic) (fields : Fields) :
    name ∈ (insert other slot fields).map Prod.fst ↔ other = name ∨ name ∈ fields.map Prod.fst := by
  have absent := @slot?_eq_none_iff name (insert other slot fields)
  rw [slot?_insert] at absent
  by_cases same : other = name
  · rw [if_pos same] at absent
    exact iff_of_true (not_not.mp fun missing => absurd (absent.mpr missing) (Option.some_ne_none _))
      (Or.inl same)
  · rw [if_neg same, slot?_eq_none_iff] at absent
    rw [← not_iff_not, ← absent, not_or]
    exact ⟨fun missing => ⟨same, missing⟩, And.right⟩

theorem mem_names_setFields : ∀ (entries : List (Bytes × Dynamic)) (fields : Fields) (name : Bytes),
    name ∈ (setFields entries fields).map Prod.fst ↔
      (∃ entry ∈ entries, storedName entry.1 = name) ∨ name ∈ fields.map Prod.fst
  | [], fields, name => by simp [setFields]
  | entry :: entries, fields, name => by
      show name ∈ (setFields entries (setField fields entry.1 entry.2)).map Prod.fst ↔ _
      rw [mem_names_setFields, setField, mem_names_insert, List.exists_mem_cons_iff, ← or_assoc]
      exact or_congr_left Or.comm

theorem slot?_setFields_other : ∀ {entries : List (Bytes × Dynamic)} {fields : Fields}
    {name : Bytes}, (∀ entry ∈ entries, storedName entry.1 ≠ name) →
    slot? name (setFields entries fields) = slot? name fields
  | [], _, _, _ => rfl
  | entry :: entries, fields, name, other => by
      show slot? name (setFields entries (setField fields entry.1 entry.2)) = _
      rw [slot?_setFields_other fun entry isIn => other entry (List.mem_cons_of_mem _ isIn),
        setField, slot?_insert]
      exact if_neg (other entry List.mem_cons_self)

theorem slot?_setFields : ∀ {entries : List (Bytes × Dynamic)} {fields : Fields}
    {entry : Bytes × Dynamic}, entry ∈ entries →
    (entries.map fun entry => storedName entry.1).Nodup →
    slot? (storedName entry.1) (setFields entries fields) = some (unboxed entry.2)
  | [], _, _, isIn, _ => absurd isIn List.not_mem_nil
  | first :: entries, fields, entry, isIn, distinct => by
      rw [List.map_cons, List.nodup_cons] at distinct
      show slot? _ (setFields entries (setField fields first.1 first.2)) = _
      rcases List.mem_cons.mp isIn with rfl | isLater
      · have later : ∀ other ∈ entries, storedName other.1 ≠ storedName entry.1 := by
          intro other isOther same
          exact distinct.1 (List.mem_map.mpr ⟨other, isOther, same⟩)
        rw [slot?_setFields_other later, setField, slot?_insert]
        exact if_pos rfl
      · exact slot?_setFields isLater distinct.2

theorem mem_anonFields_map {fields : Fields} {name : Bytes} :
    name ∈ anonFields false fields ↔ name ∈ fields.map Prod.fst := by
  rw [anonFields, if_neg Bool.false_ne_true]
  exact List.mem_mergeSort

theorem exists_related {α β : Type} {related : α → β → Prop} {ones : List α} {others : List β}
    (each : List.Forall₂ related ones others) {one : α} (isIn : one ∈ ones) :
    ∃ other ∈ others, related one other := by
  induction each with
  | nil => exact absurd isIn List.not_mem_nil
  | @cons _ other _ _ first _ ih =>
      rcases List.mem_cons.mp isIn with rfl | isLater
      · exact ⟨other, List.mem_cons_self, first⟩
      · obtain ⟨other, isOther, isRelated⟩ := ih isLater
        exact ⟨other, List.mem_cons_of_mem _ isOther, isRelated⟩

section

variable {checks : Bool} {entries : List (Bytes × Dynamic)} {listed members : List (List Char × Json)}

def Sets (checks : Bool) (entry : Bytes × Dynamic) (member : List Char × Json) : Prop :=
  entry.1 = Utf8.encode member.1 ∧ (Holds entry.2 member.2 ↔ Fits checks member.2)

theorem Sets.exists_entry (sets : List.Forall₂ (Sets checks) entries listed)
    {member : List Char × Json} (isIn : member ∈ listed) :
    ∃ entry ∈ entries, Sets checks entry member :=
  exists_related (List.Forall₂.flip sets) isIn

theorem Sets.exists_member (sets : List.Forall₂ (Sets checks) entries listed)
    {entry : Bytes × Dynamic} (isIn : entry ∈ entries) :
    ∃ member ∈ listed, Sets checks entry member :=
  exists_related sets isIn

theorem Sets.names (sets : List.Forall₂ (Sets checks) entries listed) :
    entries.map Prod.fst = listed.map fun member => Utf8.encode member.1 := by
  induction sets with
  | nil => rfl
  | cons first _ ih => rw [List.map_cons, List.map_cons, ih, first.1]

/-- The names that the parsed object has. -/
theorem Sets.mem_fields (sets : List.Forall₂ (Sets checks) entries listed)
    (permuted : listed.Perm members) (name : Bytes) :
    name ∈ anonFields false (setFields entries []) ↔
      ∃ other ∈ members.map Prod.fst, storedName (Utf8.encode other) = name := by
  rw [mem_anonFields_map, mem_names_setFields, List.map_nil,
    or_iff_left List.not_mem_nil]
  constructor
  · rintro ⟨entry, isIn, isName⟩
    obtain ⟨member, isMember, isEntry, _⟩ := Sets.exists_member sets isIn
    have isIn := permuted.mem_iff.mp isMember
    exact ⟨member.1, List.mem_map.mpr ⟨member, isIn, rfl⟩, isEntry ▸ isName⟩
  · rintro ⟨other, isOther, isName⟩
    obtain ⟨member, isMember, rfl⟩ := List.mem_map.mp isOther
    obtain ⟨entry, isIn, isEntry, _⟩ := Sets.exists_entry sets (permuted.mem_iff.mpr isMember)
    exact ⟨entry, isIn, isEntry ▸ isName⟩

theorem Sets.slot?_eq (sets : List.Forall₂ (Sets checks) entries listed)
    (permuted : listed.Perm members) (distinct : (members.map Prod.fst).Nodup)
    (short : ∀ member ∈ members, (Utf8.encode member.1).length < 2 ^ 32)
    {member : List Char × Json} (isIn : member ∈ members) :
    ∃ entry ∈ entries, Sets checks entry member ∧
      slot? (Utf8.encode member.1) (setFields entries []) = some (unboxed entry.2) := by
  obtain ⟨entry, isEntry, isSet⟩ := Sets.exists_entry sets (permuted.mem_iff.mpr isIn)
  have stored : ∀ entry ∈ entries, storedName entry.1 = entry.1 := by
    intro entry isEntry
    obtain ⟨member, isMember, same, _⟩ := Sets.exists_member sets isEntry
    rw [same]
    exact storedName_short (short member (permuted.mem_iff.mp isMember))
  have distinctNames : (entries.map fun entry => storedName entry.1).Nodup := by
    rw [List.map_congr_left stored, show (entries.map fun entry => entry.1) = entries.map Prod.fst
      from rfl, Sets.names sets]
    have listedNames := (permuted.map Prod.fst).nodup_iff.mpr distinct
    have encoded := listedNames.map Utf8.encode_injective
    rw [List.map_map] at encoded
    exact encoded
  have found := @slot?_setFields _ [] _ isEntry distinctNames
  rw [stored entry isEntry, isSet.1] at found
  exact ⟨entry, isEntry, isSet, found⟩

/-- The parsed object holds the members exactly when they fit. -/
theorem holds_setFields_iff (sets : List.Forall₂ (Sets checks) entries listed)
    (permuted : listed.Perm members) (distinct : (members.map Prod.fst).Nodup) :
    Holds (.anon false (setFields entries [])) (.object members) ↔
      Fits checks (.object members) := by
  have names := Sets.mem_fields sets permuted
  constructor
  · intro holds
    cases holds with
    | object _ visible values =>
        have kept : ∀ name,
            (∃ other ∈ members.map Prod.fst, storedName (Utf8.encode other) = name) ↔
              ∃ other ∈ members.map Prod.fst, Utf8.encode other = name := by
          intro name
          rw [← names name, visible name]
          simp only [List.mem_map, exists_exists_and_eq_and]
        have short : ∀ member ∈ members, (Utf8.encode member.1).length < 2 ^ 32 :=
          fun member isIn => short_of_stored kept _ (List.mem_map_of_mem isIn)
        refine Fits.object short fun member isIn => ?_
        obtain ⟨entry, _, isSet, found⟩ := Sets.slot?_eq sets permuted distinct short isIn
        have holds := values member isIn _ found
        rw [boxValueAsDynamic_unboxed] at holds
        exact isSet.2.mp holds
  · intro fits
    cases fits with
    | object short inner =>
        refine Holds.object (nodup_setFields entries List.nodup_nil) ?_ ?_
        · intro name
          rw [names name]
          simp only [List.mem_map, exists_exists_and_eq_and]
          refine exists_congr fun member => and_congr_right fun isIn => ?_
          rw [storedName_short (short member isIn)]
        · intro member isIn slot found
          obtain ⟨entry, _, isSet, isFound⟩ := Sets.slot?_eq sets permuted distinct short isIn
          rw [found] at isFound
          rw [Option.some.inj isFound, boxValueAsDynamic_unboxed]
          exact isSet.2.mpr (inner member isIn)

end

end Rayzor.Json
