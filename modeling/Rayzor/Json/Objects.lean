import Rayzor.Library.Utf8Scan

/-!
Contract: the values that the JSON functions read and build, and the objects that
keep them.

Owns: boxes (`Dynamic`), the slots of anonymous objects (`Slot`), and reading,
setting and listing an object's fields.

Does not own: JSON text. Class instances, and boxes without a payload, are no JSON
values and have no constructor here; an array's slots are listed as the boxes that
reading them gives.
-/

namespace Rayzor.Json

open Library

abbrev Bytes := List UInt8

/-- A field's `(type_id, raw_value)`: a raw word under a primitive type, or a pointer,
listed as the box that reading it gives. -/
inductive Slot (δ : Type) where
  | null
  | int (raw : BitVec 64)
  | float (raw : BitVec 64)
  | bool (raw : BitVec 64)
  | reference (value : δ)

/-- What a `DynamicValue*` points at: the null pointer, or a type id with its payload. An
anonymous object lists its fields, by its shape (`inline`) or by name. -/
inductive Dynamic where
  | null
  | int (value : BitVec 64)
  | float (bits : BitVec 64)
  | bool (value : Bool)
  | string (text : Bytes)
  | anon (inline : Bool) (fields : List (Bytes × Slot Dynamic))
  | array (slots : List Dynamic)
  | function

abbrev Fields := List (Bytes × Slot Dynamic)

/-- A length as the object store takes it, a `u32`. -/
def truncated (length : Nat) : Nat := length % 2 ^ 32

/-- What a box is stored as: the word of a primitive, the pointer of a reference. -/
def unboxed : Dynamic → Slot Dynamic
  | .null => .null
  | .int value => .int value
  | .float bits => .float bits
  | .bool value => .bool (if value then 1 else 0)
  | value => .reference value

def boxValueAsDynamic : Slot Dynamic → Dynamic
  | .null => .null
  | .int raw => .int raw
  | .float raw => .float raw
  | .bool raw => .bool (raw != 0)
  | .reference value => value

/-- An entry's value by its name. -/
def slot? (name : Bytes) : Fields → Option (Slot Dynamic)
  | [] => none
  | (key, slot) :: rest => if key = name then some slot else slot? name rest

/-- `HashMap::insert`. -/
def insert (name : Bytes) (slot : Slot Dynamic) : Fields → Fields
  | [] => [(name, slot)]
  | (key, old) :: rest =>
      if key = name then (key, slot) :: rest else (key, old) :: insert name slot rest

def getField (fields : Fields) (name : Bytes) : Dynamic :=
  match slot? (name.take (truncated name.length)) fields with
  | some slot => boxValueAsDynamic slot
  | none => .null

/-- On an object whose fields are kept by name. -/
def setField (fields : Fields) (name : Bytes) (value : Dynamic) : Fields :=
  insert (Utf8.lossy (name.take (truncated name.length))) (unboxed value) fields

/-- An optional field that a literal left out has the null type in the shape. -/
def isAbsent : Slot Dynamic → Bool
  | .null => true
  | _ => false

/-- The names of the fields: by the shape without what is absent, or sorted. -/
def anonFields (inline : Bool) (fields : Fields) : List Bytes :=
  if inline then (fields.filter fun field => !isAbsent field.2).map Prod.fst
  else (fields.map Prod.fst).mergeSort fun one other => decide (one ≤ other)

@[simp]
theorem boxValueAsDynamic_unboxed (value : Dynamic) :
    boxValueAsDynamic (unboxed value) = value := by
  cases value with
  | bool value => cases value <;> rfl
  | _ => rfl

theorem slot?_insert (name other : Bytes) (slot : Slot Dynamic) : ∀ fields : Fields,
    slot? name (insert other slot fields) =
      if other = name then some slot else slot? name fields
  | [] => rfl
  | (key, old) :: rest => by
      rw [insert]
      by_cases isOther : key = other
      · rw [if_pos isOther, slot?, slot?, isOther]
        split_ifs <;> rfl
      · rw [if_neg isOther, slot?, slot?, slot?_insert name other slot rest]
        by_cases isName : key = name
        · rw [if_pos isName, if_pos isName, if_neg fun same => isOther (isName.trans same.symm)]
        · rw [if_neg isName, if_neg isName]

theorem slot?_eq_none_iff {name : Bytes} : ∀ {fields : Fields},
    slot? name fields = none ↔ name ∉ fields.map Prod.fst
  | [] => by simp [slot?]
  | (key, slot) :: rest => by
      rw [slot?, List.map_cons, List.mem_cons, not_or]
      split_ifs with isName
      · simp [isName]
      · rw [slot?_eq_none_iff]
        exact ⟨fun absent => ⟨fun same => isName same.symm, absent⟩, And.right⟩

theorem mem_of_slot? {name : Bytes} {slot : Slot Dynamic} : ∀ {fields : Fields},
    slot? name fields = some slot → (name, slot) ∈ fields
  | [], found => absurd found (by simp [slot?])
  | (key, old) :: rest, found => by
      rw [slot?] at found
      split_ifs at found with isName
      · rw [← isName, ← Option.some.inj found]
        exact List.mem_cons_self
      · exact List.mem_cons_of_mem _ (mem_of_slot? found)

theorem nodup_insert (name : Bytes) (slot : Slot Dynamic) : ∀ {fields : Fields},
    (fields.map Prod.fst).Nodup → ((insert name slot fields).map Prod.fst).Nodup
  | [], _ => by simp [insert]
  | (key, old) :: rest, distinct => by
      rw [List.map_cons, List.nodup_cons] at distinct
      rw [insert]
      split_ifs with isName
      · exact List.nodup_cons.mpr distinct
      · rw [List.map_cons, List.nodup_cons]
        refine ⟨?_, nodup_insert name slot distinct.2⟩
        rw [← slot?_eq_none_iff, slot?_insert, if_neg fun same => isName same.symm,
          slot?_eq_none_iff]
        exact distinct.1

/-- A field's box is smaller than the object's. -/
theorem sizeOf_getField (inline : Bool) (fields : Fields) (name : Bytes) :
    sizeOf (getField fields name) < sizeOf (Dynamic.anon inline fields) := by
  have flag : ∀ b : Bool, sizeOf b = 1 := fun b => by cases b <;> rfl
  rw [getField, Dynamic.anon.sizeOf_spec, flag]
  split
  · rename_i slot found
    have inside := List.sizeOf_lt_of_mem (mem_of_slot? found)
    rw [Prod.mk.sizeOf_spec] at inside
    have part : sizeOf (boxValueAsDynamic slot) ≤ sizeOf slot + 1 := by
      cases slot with
      | bool raw =>
          rw [boxValueAsDynamic, Dynamic.bool.sizeOf_spec, flag, Slot.bool.sizeOf_spec]
          omega
      | reference value =>
          rw [boxValueAsDynamic, Slot.reference.sizeOf_spec]
          omega
      | _ => simp [boxValueAsDynamic]
    omega
  · rw [Dynamic.null.sizeOf_spec]
    omega

end Rayzor.Json
