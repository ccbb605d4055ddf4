import Rayzor.CStructs.Layouts
import Rayzor.Library.Acyclic

/-!
Contract: the structs that classes stand for.
-/

namespace Rayzor.CStructs

open Library Ir Relation

inductive FieldKind where
  | pointer (isConst : Bool) (target : Option TypeId)
  | sizeT
  | charPointer
  | nested
  | primitive
  deriving DecidableEq

namespace HirToMirContext

variable (context : HirToMirContext)

def cstructSymbol (typeId : TypeId) : Option SymbolId :=
  match context.typeTable.get? typeId with
  | some (.classType symbolId) =>
      if (context.symbol symbolId).isCstruct then some symbolId else none
  | _ => none

def IsCstruct (typeId : TypeId) : Prop := (context.cstructSymbol typeId).isSome = true

instance (typeId : TypeId) : Decidable (context.IsCstruct typeId) :=
  inferInstanceAs (Decidable ((context.cstructSymbol typeId).isSome = true))

def structName (typeId : TypeId) : Text := ((context.cstructSymbol typeId).map context.cName).getD []

def structMembers (typeId : TypeId) : List SymbolId :=
  ((context.cstructSymbol typeId).map (context.structFields typeId)).getD []

def fieldKind (typeId : TypeId) : FieldKind :=
  match context.typeTable.get? typeId with
  | some (.abstract symbolId typeArgs) =>
      let name := (context.symbol symbolId).name
      if name = "Ptr".toList then .pointer false typeArgs.head?
      else if name = "Ref".toList then .pointer true typeArgs.head?
      else if name = "Box".toList then .pointer false typeArgs.head?
      else if name = "Usize".toList then .sizeT
      else if name = "CString".toList then .charPointer
      else .primitive
  | some (.classType symbolId) =>
      if context.isCString symbolId then .charPointer
      else if (context.symbol symbolId).isCstruct then .nested
      else .primitive
  | _ => .primitive

def targetName (target : Option TypeId) : Text :=
  ((target.bind context.cstructSymbol).map context.cName).getD "void".toList

def primitiveCType : IrType → CType
  | .f64 => .double
  | .bool => .int
  | _ => .long

def cTypeOf (typeId : TypeId) : CType :=
  match context.fieldKind typeId with
  | .pointer isConst target => .pointer isConst (context.targetName target)
  | .sizeT => .sizeT
  | .charPointer => .charPointer
  | .nested => .named (context.structName typeId)
  | .primitive => primitiveCType (context.convertType typeId)

def declarationOf (typeId : TypeId) : Declaration where
  name := context.structName typeId
  fields := (context.structMembers typeId).map fun field =>
    (context.cTypeOf (context.symbol field).typeId, (context.symbol field).name)

/-- A field of the first struct is the second, by value. -/
def Contains (outer inner : TypeId) : Prop :=
  ∃ field ∈ context.structMembers outer,
    (context.symbol field).typeId = inner ∧ context.fieldKind inner = .nested

open Classical in
/-- The extent of a struct, where none contains itself by value. -/
noncomputable def extentOf : TypeId → Extent :=
  if wellFounded : WellFounded fun inner outer => context.Contains outer inner then
    wellFounded.fix fun outer extentBelow =>
      structExtent ((context.structMembers outer).map fun field =>
        if contained : context.Contains outer (context.symbol field).typeId then
          extentBelow _ contained
        else (context.cTypeOf (context.symbol field).typeId).extent (fun _ => none) |>.getD ⟨8, 8⟩)
  else fun _ => ⟨0, 1⟩

noncomputable def fieldExtent (typeId : TypeId) : Extent :=
  if context.fieldKind typeId = .nested then context.extentOf typeId
  else ((context.cTypeOf typeId).extent fun _ => none).getD ⟨8, 8⟩

noncomputable def memberExtents (typeId : TypeId) : List Extent :=
  (context.structMembers typeId).map fun field => context.fieldExtent (context.symbol field).typeId

/-- A field's type in the representation is as large as its C type: a nested struct has the eight
bytes of the word it is taken for, and a field that is known by its representation alone is an
integer that is widened or no truth value and has eight bytes. -/
def Represented (typeId : TypeId) : Prop :=
  match context.fieldKind typeId with
  | .nested => (context.extentOf typeId).size = 8
  | .primitive => context.convertType typeId = .i32 ∨
      context.convertType typeId ≠ .bool ∧ (context.convertType typeId).size = some 8
  | .pointer _ _ | .sizeT | .charPointer => True

/-- What the second struct contains is declared as something in the first one, itself included. -/
def Inside (struct other : TypeId) : Prop :=
  ∀ inner, ReflTransGen context.Contains other inner →
    ∃ inner', ReflTransGen context.Contains struct inner' ∧
      context.declarationOf inner' = context.declarationOf inner

/-- The same without the first struct itself. -/
def StrictlyInside (struct other : TypeId) : Prop :=
  ∀ inner, ReflTransGen context.Contains other inner →
    ∃ inner', TransGen context.Contains struct inner' ∧
      context.declarationOf inner' = context.declarationOf inner

/-- The condition on a family of classes. -/
structure Regular : Prop where
  represented : ∀ struct, ∀ field ∈ context.structMembers struct,
    context.Represented (context.symbol field).typeId
  /-- A pointer to a struct points into its own struct, or to one that contains it. -/
  pointers : ∀ struct, ∀ field ∈ context.structMembers struct, ∀ isConst target,
    context.fieldKind (context.symbol field).typeId = .pointer isConst (some target) →
    context.IsCstruct target →
    context.StrictlyInside struct target ∨ ReflTransGen context.Contains target struct
  /-- Within a struct, structs of one name have the same fields. -/
  names : ∀ struct inner inner', ReflTransGen context.Contains struct inner →
    ReflTransGen context.Contains struct inner' →
    context.structName inner = context.structName inner' →
    context.declarationOf inner = context.declarationOf inner'
  sizes : ∀ struct, context.IsCstruct struct → (context.extentOf struct).size < 2 ^ 32

variable {context}

theorem isCstruct_of_member {struct field : TypeId}
    (member : field ∈ context.structMembers struct) : context.IsCstruct struct := by
  unfold IsCstruct
  unfold structMembers at member
  cases known : context.cstructSymbol struct with
  | none =>
      rw [known] at member
      exact absurd member List.not_mem_nil
  | some symbolId => rfl

theorem bind_symbolId {typeId : TypeId} {symbolId : SymbolId}
    (isSymbol : context.cstructSymbol typeId = some symbolId) :
    (context.typeTable.get? typeId).bind TypeKind.symbolId = some symbolId := by
  unfold cstructSymbol at isSymbol
  split at isSymbol
  · next isClass =>
      split_ifs at isSymbol
      rw [isClass, Option.bind_some, TypeKind.symbolId, isSymbol]
  · cases isSymbol

theorem isCstruct_of_nested {typeId : TypeId} (nested : context.fieldKind typeId = .nested) :
    context.IsCstruct typeId := by
  unfold fieldKind at nested
  unfold IsCstruct cstructSymbol
  split at nested
  · simp only at nested
    split_ifs at nested
  · next symbolId isClass =>
      split_ifs at nested with isText isCstruct
      rw [isClass]
      simp [isCstruct]
  · cases nested

theorem Contains.inner {outer inner : TypeId} (contains : context.Contains outer inner) :
    context.IsCstruct inner := by
  obtain ⟨field, member, rfl, nested⟩ := contains
  exact isCstruct_of_nested nested

theorem Contains.outer {outer inner : TypeId} (contains : context.Contains outer inner) :
    context.IsCstruct outer := by
  obtain ⟨field, member, -⟩ := contains
  exact isCstruct_of_member member

theorem IsCstruct.isListed {typeId : TypeId} (isCstruct : context.IsCstruct typeId) :
    typeId ∈ context.typeTable.keys := by
  rw [OrdMap.mem_keys_iff]
  unfold IsCstruct cstructSymbol at isCstruct
  cases known : context.typeTable.get? typeId with
  | none => simp [known] at isCstruct
  | some kind => exact ⟨kind, rfl⟩

theorem contains_wellFounded (acyclic : Acyclic context.Contains) :
    WellFounded fun inner outer => context.Contains outer inner :=
  acyclic.wellFounded context.typeTable.keys fun _ _ contains => contains.outer.isListed

theorem name_noSpace (symbolId : SymbolId) : ' ' ∉ context.cName symbolId := by
  have isIdentifier := (context.symbol symbolId).isIdentifier
  unfold cName
  dsimp only
  split_ifs
  · exact isIdentifier
  · intro member
    obtain ⟨char, inName, isSpace⟩ := List.mem_map.mp member
    split_ifs at isSpace with isDot
    · exact absurd isSpace (by decide)
    · exact isIdentifier (isSpace ▸ inName)

theorem structName_noSpace (typeId : TypeId) : ' ' ∉ context.structName typeId := by
  unfold structName
  cases context.cstructSymbol typeId with
  | none => exact List.not_mem_nil
  | some symbolId => exact name_noSpace symbolId

theorem extentOf_eq (acyclic : Acyclic context.Contains) (typeId : TypeId) :
    context.extentOf typeId = structExtent (context.memberExtents typeId) := by
  have wellFounded := contains_wellFounded acyclic
  have unfolded : context.extentOf = wellFounded.fix _ := dif_pos wellFounded
  rw [unfolded, WellFounded.fix_eq, ← unfolded, memberExtents]
  apply congrArg
  apply List.map_congr_left
  intro field member
  unfold fieldExtent
  by_cases nested : context.fieldKind (context.symbol field).typeId = .nested
  · have contained : context.Contains typeId (context.symbol field).typeId :=
      ⟨field, member, rfl, nested⟩
    rw [dif_pos contained, if_pos nested]
  · have notContained : ¬context.Contains typeId (context.symbol field).typeId :=
      fun ⟨_, _, _, isNested⟩ => nested isNested
    rw [dif_neg notContained, if_neg nested]

theorem extent_primitive (declared : Declared) (irType : IrType) :
    (primitiveCType irType).extent declared =
      some (((primitiveCType irType).extent fun _ => none).getD ⟨8, 8⟩) := by
  cases irType <;> rfl

theorem extent_cTypeOf {declared : Declared} {typeId : TypeId}
    (known : context.fieldKind typeId = .nested →
      declared (context.structName typeId) = some (context.extentOf typeId)) :
    (context.cTypeOf typeId).extent declared = some (context.fieldExtent typeId) := by
  unfold fieldExtent cTypeOf
  cases isKind : context.fieldKind typeId with
  | pointer isConst target => rfl
  | sizeT => rfl
  | charPointer => rfl
  | nested => exact known isKind
  | primitive => exact extent_primitive declared _

theorem extents_declarationOf {declared : Declared} {struct : TypeId}
    (known : ∀ inner, context.Contains struct inner →
      declared (context.structName inner) = some (context.extentOf inner)) :
    (context.declarationOf struct).extents declared = some (context.memberExtents struct) := by
  unfold Declaration.extents declarationOf memberExtents
  rw [List.mapM_map]
  have along : ∀ fields : List SymbolId, fields ⊆ context.structMembers struct →
      fields.mapM (fun field =>
          (context.cTypeOf (context.symbol field).typeId).extent declared) =
        some (fields.map fun field => context.fieldExtent (context.symbol field).typeId) := by
    intro fields
    induction fields with
    | nil => exact fun _ => rfl
    | cons field fields ih =>
        intro included
        have first : (context.cTypeOf (context.symbol field).typeId).extent declared =
            some (context.fieldExtent (context.symbol field).typeId) :=
          extent_cTypeOf fun nested => known _ ⟨field, included List.mem_cons_self, rfl, nested⟩
        rw [List.mapM_cons, first,
          ih fun other member => included (List.mem_cons_of_mem _ member)]
        rfl
  exact along _ fun _ member => member

/-- Alignments are one of three. -/
def Aligned (extent : Extent) : Prop := extent.align = 1 ∨ extent.align = 4 ∨ extent.align = 8

theorem structExtent_aligned {extents : List Extent}
    (aligned : ∀ extent ∈ extents, Aligned extent) : Aligned (structExtent extents) := by
  have along : ∀ align, (align = 1 ∨ align = 4 ∨ align = 8) →
      Aligned ⟨0, extents.foldl (fun align extent => max align extent.align) align⟩ := by
    induction extents with
    | nil => exact fun _ isAligned => isAligned
    | cons extent extents ih =>
        intro align isAligned
        rw [List.foldl_cons]
        apply ih fun other member => aligned other (List.mem_cons_of_mem _ member)
        have first := aligned extent List.mem_cons_self
        unfold Aligned at first
        omega
  exact along 1 (.inl rfl)

theorem fieldExtent_aligned (acyclic : Acyclic context.Contains) (typeId : TypeId) :
    Aligned (context.fieldExtent typeId) := by
  have notNested : ∀ typeId, context.fieldKind typeId ≠ .nested →
      Aligned (context.fieldExtent typeId) := by
    intro typeId notNested
    unfold fieldExtent cTypeOf
    rw [if_neg notNested]
    cases isKind : context.fieldKind typeId with
    | pointer isConst target => exact .inr (.inr rfl)
    | sizeT => exact .inr (.inr rfl)
    | charPointer => exact .inr (.inr rfl)
    | nested => exact absurd isKind notNested
    | primitive =>
        cases context.convertType typeId with
        | bool => exact .inr (.inl rfl)
        | _ => exact .inr (.inr rfl)
  have structs : ∀ struct, Aligned (context.extentOf struct) := by
    intro struct
    induction struct using (contains_wellFounded acyclic).induction with
    | _ struct ih =>
        rw [extentOf_eq acyclic]
        apply structExtent_aligned
        intro extent member
        obtain ⟨field, isMember, rfl⟩ := List.mem_map.mp member
        by_cases nested : context.fieldKind (context.symbol field).typeId = .nested
        · rw [fieldExtent, if_pos nested]
          exact ih _ ⟨field, isMember, rfl, nested⟩
        · exact notNested _ nested
  by_cases nested : context.fieldKind typeId = .nested
  · rw [fieldExtent, if_pos nested]
    exact structs typeId
  · exact notNested typeId nested

theorem named_of_cTypeOf {typeId : TypeId} {name : Text}
    (isNamed : context.cTypeOf typeId = .named name) :
    context.fieldKind typeId = .nested ∧ context.structName typeId = name := by
  unfold cTypeOf at isNamed
  cases isKind : context.fieldKind typeId with
  | nested =>
      rw [isKind] at isNamed
      exact ⟨rfl, CType.named.inj isNamed⟩
  | pointer isConst target => simp [isKind] at isNamed
  | sizeT => simp [isKind] at isNamed
  | charPointer => simp [isKind] at isNamed
  | primitive =>
      rw [isKind] at isNamed
      cases known : context.convertType typeId <;> simp [primitiveCType, known] at isNamed

variable {struct : TypeId}

theorem Inside.of_path {inner : TypeId} (path : ReflTransGen context.Contains struct inner) :
    context.Inside struct inner :=
  fun other path' => ⟨other, path.trans path', rfl⟩

theorem StrictlyInside.inside {other : TypeId} (strictly : context.StrictlyInside struct other) :
    context.Inside struct other := by
  intro inner path
  obtain ⟨inner', path', same⟩ := strictly inner path
  exact ⟨inner', path'.to_reflTransGen, same⟩

theorem StrictlyInside.of_path {inner : TypeId} (path : TransGen context.Contains struct inner) :
    context.StrictlyInside struct inner :=
  fun other path' => ⟨other, path.trans_left path', rfl⟩

theorem Inside.along {one inner : TypeId} (inside : context.Inside struct one)
    (path : ReflTransGen context.Contains one inner) : context.Inside struct inner :=
  fun other path' => inside other (path.trans path')

theorem Inside.trans {one other : TypeId} (inside : context.Inside struct one)
    (inside' : context.Inside one other) : context.Inside struct other := by
  intro inner path
  obtain ⟨inner', path', same⟩ := inside' inner path
  obtain ⟨inner'', path'', same'⟩ := inside inner' path'
  exact ⟨inner'', path'', same'.trans same⟩

variable (regular : context.Regular)

include regular in
/-- Inside one struct, structs of one name are declared alike. -/
theorem Inside.same {one other : TypeId} (inside : context.Inside struct one)
    (inside' : context.Inside struct other)
    (sameName : context.structName one = context.structName other) :
    context.declarationOf one = context.declarationOf other := by
  obtain ⟨inner, path, same⟩ := inside one .refl
  obtain ⟨inner', path', same'⟩ := inside' other .refl
  have name : context.structName inner = context.structName one := congrArg Declaration.name same
  have name' : context.structName inner' = context.structName other :=
    congrArg Declaration.name same'
  rw [← same, ← same']
  exact regular.names struct inner inner' path path' (by rw [name, name', sameName])

theorem Contains.rename {one other inner : TypeId} (contains : context.Contains one inner)
    (same : context.declarationOf one = context.declarationOf other) :
    ∃ inner', context.Contains other inner' ∧
      context.structName inner' = context.structName inner := by
  obtain ⟨field, member, rfl, nested⟩ := contains
  have listed : (CType.named (context.structName (context.symbol field).typeId),
      (context.symbol field).name) ∈ (context.declarationOf one).fields := by
    apply List.mem_map.mpr ⟨field, member, ?_⟩
    rw [cTypeOf, nested]
  rw [same] at listed
  obtain ⟨field', member', shape⟩ := List.mem_map.mp listed
  obtain ⟨nested', named⟩ := named_of_cTypeOf (Prod.ext_iff.mp shape).1
  exact ⟨_, ⟨field', member', rfl, nested'⟩, named⟩

include regular in
theorem rename_path {one other inner : TypeId} (path : TransGen context.Contains one inner)
    (inside : context.Inside struct one) (inside' : context.Inside struct other)
    (sameName : context.structName one = context.structName other) :
    ∃ inner', TransGen context.Contains other inner' ∧
      context.structName inner' = context.structName inner := by
  induction path with
  | single contains =>
      obtain ⟨inner', contains', named⟩ := contains.rename (inside.same regular inside' sameName)
      exact ⟨inner', .single contains', named⟩
  | tail path contains ih =>
      obtain ⟨middle', path', named⟩ := ih
      have same := (inside.along path.to_reflTransGen).same regular
        (inside'.along path'.to_reflTransGen) named.symm
      obtain ⟨inner', contains', named'⟩ := contains.rename same
      exact ⟨inner', path'.tail contains', named'⟩

include regular in
/-- No struct contains one of its own name. -/
theorem name_ne_of_path (acyclic : Acyclic context.Contains) {outer inner : TypeId}
    (path : TransGen context.Contains outer inner) :
    context.structName inner ≠ context.structName outer := by
  induction outer using (contains_wellFounded acyclic).transGen.induction generalizing inner with
  | _ outer ih =>
      intro sameName
      obtain ⟨inner', path', named⟩ := rename_path regular path (.of_path .refl)
        (.of_path path.to_reflTransGen) sameName.symm
      exact ih inner (transGen_swap.mpr path) path' named

include regular in
theorem extentOf_congr (acyclic : Acyclic context.Contains) {one other : TypeId}
    (inside : context.Inside struct one) (inside' : context.Inside struct other)
    (sameName : context.structName one = context.structName other) :
    context.extentOf one = context.extentOf other := by
  induction one using (contains_wellFounded acyclic).induction generalizing other with
  | _ one ih =>
      have same := inside.same regular inside' sameName
      have fields : List.Forall₂ (fun field field' =>
          context.cTypeOf (context.symbol field).typeId =
            context.cTypeOf (context.symbol field').typeId)
          (context.structMembers one) (context.structMembers other) := by
        have mapped := congrArg (List.map Prod.fst ∘ Declaration.fields) same
        simp only [declarationOf, Function.comp, List.map_map] at mapped
        rw [← List.forall₂_eq_eq_eq, List.forall₂_map_left_iff, List.forall₂_map_right_iff] at mapped
        exact mapped
      rw [extentOf_eq acyclic, extentOf_eq acyclic]
      apply congrArg
      unfold memberExtents
      rw [← List.forall₂_eq_eq_eq, List.forall₂_map_left_iff, List.forall₂_map_right_iff]
      have withMembers := (List.forall₂_and_left (p := fun field =>
        field ∈ context.structMembers one) _ _).mpr ⟨fun _ member => member, fields⟩
      have withMembers' := (List.forall₂_and_left (p := fun field =>
        field ∈ context.structMembers other) _ _).mpr ⟨fun _ member => member, withMembers.flip⟩
      apply withMembers'.flip.imp
      rintro field field' ⟨member', member, sameType⟩
      unfold fieldExtent
      by_cases nested : context.fieldKind (context.symbol field).typeId = .nested
      · have isNamed : context.cTypeOf (context.symbol field').typeId =
            .named (context.structName (context.symbol field).typeId) := by
          rw [← sameType, cTypeOf, nested]
        obtain ⟨nested', named⟩ := named_of_cTypeOf isNamed
        have contains : context.Contains one (context.symbol field).typeId :=
          ⟨field, member, rfl, nested⟩
        have contains' : context.Contains other (context.symbol field').typeId :=
          ⟨field', member', rfl, nested'⟩
        rw [if_pos nested, if_pos nested']
        exact ih _ contains (inside.along (.single contains))
          (inside'.along (.single contains')) named.symm
      · have nested' : ¬context.fieldKind (context.symbol field').typeId = .nested := by
          intro nested'
          have isNamed : context.cTypeOf (context.symbol field).typeId =
              .named (context.structName (context.symbol field').typeId) := by
            rw [sameType, cTypeOf, nested']
          exact nested (named_of_cTypeOf isNamed).1
        rw [if_neg nested, if_neg nested', sameType]

end HirToMirContext

end Rayzor.CStructs
