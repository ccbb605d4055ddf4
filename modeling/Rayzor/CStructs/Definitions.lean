import Rayzor.CStructs.Structs

/-!
Contract: sequences of definitions that grow by pushing.
-/

namespace Rayzor.CStructs

open Library Relation

/-- The text of the definition of a struct. -/
def HirToMirContext.cdefOf (context : HirToMirContext) (typeId : TypeId) : Text :=
  (context.declarationOf typeId).text

inductive Ordered (context : HirToMirContext) (struct : TypeId) : List TypeId → Prop where
  | nil : Ordered context struct []
  | concat {structs : List TypeId} {last : TypeId} (ordered : Ordered context struct structs)
      (inside : context.Inside struct last)
      (isNew : context.structName last ∉ structs.map context.structName)
      (behind : ∀ inner, context.Contains last inner →
        context.structName inner ∈ structs.map context.structName) :
      Ordered context struct (structs ++ [last])

namespace Ordered

variable {context : HirToMirContext} {struct : TypeId} {structs : List TypeId}

theorem inside (ordered : Ordered context struct structs) {other : TypeId}
    (member : other ∈ structs) : context.Inside struct other := by
  induction ordered with
  | nil => exact absurd member List.not_mem_nil
  | concat _ inside _ _ ih =>
      obtain earlier | isLast := List.mem_append.mp member
      · exact ih earlier
      · exact List.mem_singleton.mp isLast ▸ inside

theorem mono {outer : TypeId} (ordered : Ordered context struct structs)
    (inside : context.Inside outer struct) : Ordered context outer structs := by
  induction ordered with
  | nil => exact .nil
  | concat _ inside' isNew behind ih =>
      exact ih.concat (inside.trans inside') isNew behind

theorem known_of_contains (regular : context.Regular) (ordered : Ordered context struct structs)
    {other inner : TypeId} (contains : context.Contains other inner)
    (inside : context.Inside struct other)
    (known : context.structName other ∈ structs.map context.structName) :
    context.structName inner ∈ structs.map context.structName := by
  induction ordered with
  | nil => exact absurd known List.not_mem_nil
  | @concat structs last ordered inside' isNew behind ih =>
      rw [List.map_append, List.mem_append] at known ⊢
      left
      obtain earlier | isLast := known
      · exact ih earlier
      · have same := inside.same regular inside' (List.mem_singleton.mp isLast)
        obtain ⟨inner', contains', named⟩ := contains.rename same
        exact named ▸ behind inner' contains'

theorem known_of_path (regular : context.Regular) (ordered : Ordered context struct structs)
    {other inner : TypeId} (path : TransGen context.Contains other inner)
    (inside : context.Inside struct other)
    (known : context.structName other ∈ structs.map context.structName) :
    context.structName inner ∈ structs.map context.structName := by
  induction path with
  | single contains => exact ordered.known_of_contains regular contains inside known
  | tail path contains ih =>
      exact ordered.known_of_contains regular contains (inside.along path.to_reflTransGen)
        ih

theorem declareAll_eq (regular : context.Regular) (acyclic : Acyclic context.Contains)
    (ordered : Ordered context struct structs) :
    ∃ declared, declareAll (structs.map context.declarationOf) = some declared ∧
      (∀ other, context.Inside struct other →
        context.structName other ∈ structs.map context.structName →
        declared (context.structName other) = some (context.extentOf other)) ∧
      ∀ name, name ∉ structs.map context.structName → declared name = none := by
  induction ordered with
  | nil => exact ⟨fun _ => none, rfl, fun _ _ known => absurd known List.not_mem_nil, fun _ _ => rfl⟩
  | @concat structs last ordered inside isNew behind ih =>
      obtain ⟨declared, isDeclared, extents, others⟩ := ih
      have fields : (context.declarationOf last).extents declared =
          some (context.memberExtents last) :=
        HirToMirContext.extents_declarationOf fun inner contains =>
          extents inner (inside.along (.single contains)) (behind inner contains)
      have unknown : declared (context.declarationOf last).name = none := others _ isNew
      refine ⟨Function.update declared (context.structName last) (some (context.extentOf last)),
        ?_, ?_, ?_⟩
      · rw [List.map_append, List.map_singleton, declareAll_concat, isDeclared, Option.bind_some,
          Declaration.declare, unknown, fields, HirToMirContext.extentOf_eq acyclic]
        rfl
      · intro other inside' known
        by_cases same : context.structName other = context.structName last
        · rw [same, Function.update_self,
            HirToMirContext.extentOf_congr regular acyclic inside inside' same.symm]
        · rw [Function.update_of_ne same]
          apply extents other inside'
          rw [List.map_append, List.mem_append] at known
          exact known.resolve_right fun isLast => same (List.mem_singleton.mp isLast)
      · intro name absent
        rw [List.map_append, List.mem_append, not_or] at absent
        rw [Function.update_of_ne fun same => absent.2 (List.mem_singleton.mpr same)]
        exact others name absent.1

end Ordered

section Pushing

variable {context : HirToMirContext} {struct : TypeId} (regular : context.Regular)

theorem known_of_cdef {structs : List TypeId} {other : TypeId} {front : Text}
    (member : front ++ context.cdefOf other ∈ structs.map context.cdefOf) :
    context.structName other ∈ structs.map context.structName := by
  obtain ⟨known, isMember, same⟩ := List.mem_map.mp member
  have sameName : context.structName other = context.structName known :=
    name_eq_of_text_append_eq (HirToMirContext.structName_noSpace other)
      (HirToMirContext.structName_noSpace known) same.symm
  exact sameName ▸ List.mem_map_of_mem isMember

include regular in
theorem cdef_mem_iff {structs : List TypeId} (ordered : Ordered context struct structs)
    {other : TypeId} (inside : context.Inside struct other) :
    context.cdefOf other ∈ structs.map context.cdefOf ↔
      context.structName other ∈ structs.map context.structName := by
  constructor
  · intro member
    apply @known_of_cdef context structs other [] member
  · intro known
    obtain ⟨same, member, sameName⟩ := List.mem_map.mp known
    have declared := inside.same regular (ordered.inside member) sameName.symm
    rw [HirToMirContext.cdefOf, declared]
    exact List.mem_map_of_mem (f := context.cdefOf) member

/-- Definitions of a sequence whose names are those of two. -/
def Pushed (context : HirToMirContext) (struct : TypeId) (depCdefs : List Text)
    (names names' : List Text) : Prop :=
  ∃ structs, Ordered context struct structs ∧ depCdefs = structs.map context.cdefOf ∧
    ∀ name, name ∈ structs.map context.structName ↔ name ∈ names ∨ name ∈ names'

include regular in
theorem pushNew_cdef {structs : List TypeId} (ordered : Ordered context struct structs)
    {last : TypeId} (inside : context.Inside struct last)
    (behind : ∀ inner, context.Contains last inner →
      context.structName inner ∈ structs.map context.structName) :
    Pushed context struct (pushNew (structs.map context.cdefOf) (context.cdefOf last))
      (structs.map context.structName) [context.structName last] := by
  unfold pushNew
  split
  · next isThere =>
      have known := (cdef_mem_iff regular ordered inside).mp (List.contains_iff_mem.mp isThere)
      refine ⟨structs, ordered, rfl, fun name => ?_⟩
      rw [List.mem_singleton]
      exact ⟨.inl, fun either => either.elim id fun same => same ▸ known⟩
  · next isNotThere =>
      have unknown : context.structName last ∉ structs.map context.structName := fun known =>
        isNotThere (List.contains_iff_mem.mpr ((cdef_mem_iff regular ordered inside).mpr known))
      refine ⟨structs ++ [last], ordered.concat inside unknown behind, ?_, fun name => ?_⟩
      · rw [List.map_append, List.map_singleton]
      · rw [List.map_append, List.mem_append, List.map_singleton]

include regular in
/-- Pushing a sequence onto another one. -/
theorem foldl_pushNew {structs others : List TypeId} (ordered : Ordered context struct structs)
    (ordered' : Ordered context struct others) :
    Pushed context struct ((others.map context.cdefOf).foldl pushNew (structs.map context.cdefOf))
      (structs.map context.structName) (others.map context.structName) := by
  induction ordered' with
  | nil => exact ⟨structs, ordered, rfl, fun name => by simp⟩
  | @concat others last ordered' inside isNew behind ih =>
      obtain ⟨between, orderedBetween, isBetween, names⟩ := ih
      obtain ⟨final, orderedFinal, isFinal, names'⟩ :=
        pushNew_cdef regular orderedBetween inside fun inner contains =>
          (names _).mpr (.inr (behind inner contains))
      refine ⟨final, orderedFinal, ?_, fun name => ?_⟩
      · rw [List.map_append, List.map_singleton, List.foldl_append, isBetween]
        exact isFinal
      · rw [names' name, names name, List.map_append, List.mem_append, or_assoc, List.map_singleton]

end Pushing

end Rayzor.CStructs
