import Rayzor.CStructs.Computed

/-!
Contract: when the layouts of a family of classes are those of the C compiler.
-/

namespace Rayzor.CStructs

open Library Ir Relation

/-- A layout is what the C rules give for the definitions that are emitted with it. -/
structure Emits (layout : CStructLayout) (dependencies : List Declaration) (own : Declaration)
    (declared : Declared) (extents : List Extent) : Prop where
  depCdefs : layout.depCdefs = dependencies.map Declaration.text
  ownCdef : layout.ownCdef = own.text
  cdefString : layout.cdefString = (dependencies ++ [own]).flatMap Declaration.text
  cName : own.name = layout.cName
  fields : layout.fields.map (fun field => (field.cType, field.name)) =
    own.fields.map fun field => (field.1.text, field.2)
  /-- The definitions are valid one after the other. -/
  dependenciesDeclared : declareAll dependencies = some declared
  ownDeclared : own.declare declared =
    some (Function.update declared own.name (some (structExtent extents)))
  ofFields : own.extents declared = some extents
  offsets : layout.fields.map (fun field => field.byteOffset.toNat) = offsetsFrom 0 extents
  size : layout.totalSize.toNat = (structExtent extents).size
  alignment : layout.alignment.toNat = (structExtent extents).align
  represented : List.Forall₂ (fun field extent => field.irType.size = some extent.size)
    layout.fields extents

def FollowsC (layout : CStructLayout) : Prop :=
  ∃ dependencies own declared extents, Emits layout dependencies own declared extents

def CStructLayout.definitions (layout : CStructLayout) : List Text :=
  layout.depCdefs ++ [layout.ownCdef]

namespace HirToMirContext

variable (context : HirToMirContext)

/-- Requests for C structs from an empty cache, with the answers. -/
def Answers (requests : List TypeId) (answers : List (Option CStructLayout)) : Prop :=
  (∀ typeId ∈ requests, context.IsCstruct typeId) ∧
    ∃ fuel layouts, context.requestLayouts fuel OrdMap.empty requests = some (answers, layouts)

/-- What the layouts of a family owe, for requests in any order. -/
structure FaithfulToC : Prop where
  terminates : ∀ requests, (∀ typeId ∈ requests, context.IsCstruct typeId) →
    ∃ enough, ∀ fuel ≥ enough, (context.requestLayouts fuel OrdMap.empty requests).isSome = true
  follows : ∀ requests answers, context.Answers requests answers →
    ∀ typeId answer, (typeId, answer) ∈ requests.zip answers →
      ∃ layout, answer = some layout ∧ FollowsC layout
  sameDefinitions : ∀ requests answers requests' answers',
    context.Answers requests answers → context.Answers requests' answers' →
    ∀ typeId layout layout', (typeId, some layout) ∈ requests.zip answers →
      (typeId, some layout') ∈ requests'.zip answers' →
      ∀ text, text ∈ layout.definitions ↔ text ∈ layout'.definitions

end HirToMirContext

variable {context : HirToMirContext}

theorem exists_enough {holds : SymbolId → Nat → Prop} (fields : List SymbolId)
    (each : ∀ field ∈ fields, ∃ enough, ∀ fuel ≥ enough, holds field fuel) :
    ∃ enough, ∀ field ∈ fields, ∀ fuel ≥ enough, holds field fuel := by
  induction fields with
  | nil => exact ⟨0, fun _ member => absurd member List.not_mem_nil⟩
  | cons field fields ih =>
      obtain ⟨first, ofFirst⟩ := each field List.mem_cons_self
      obtain ⟨rest, ofRest⟩ := ih fun other member =>
        each other (List.mem_cons_of_mem _ member)
      refine ⟨max first rest, fun other member fuel enough => ?_⟩
      obtain rfl | member := List.mem_cons.mp member
      · exact ofFirst fuel ((le_max_left _ _).trans enough)
      · exact ofRest other member fuel ((le_max_right _ _).trans enough)

theorem foldlM_isSome {compute : Computation} (fields : List SymbolId)
    (each : ∀ field ∈ fields, ∀ progress, (context.addField compute progress field).isSome = true) :
    ∀ progress, (fields.foldlM (context.addField compute) progress).isSome = true := by
  induction fields with
  | nil => exact fun _ => rfl
  | cons field fields ih =>
      intro progress
      obtain ⟨between, added⟩ := Option.isSome_iff_exists.mp (each field List.mem_cons_self progress)
      rw [List.foldlM_cons, added]
      exact ih (fun other member =>
        each other (List.mem_cons_of_mem _ member)) between

theorem addField_isSome {compute : Computation} {field : SymbolId}
    (nested : context.fieldKind (context.symbol field).typeId = .nested →
      ∀ layouts, (compute layouts (context.symbol field).typeId).isSome = true)
    (progress : LayoutProgress) : (context.addField compute progress field).isSome = true := by
  unfold HirToMirContext.addField
  rw [Option.isSome_map]
  cases isKind : context.fieldKind (context.symbol field).typeId with
  | pointer isConst target => rw [HirToMirContext.resolve_pointer isKind]; rfl
  | sizeT => rw [HirToMirContext.resolve_sizeT isKind]; rfl
  | charPointer => rw [HirToMirContext.resolve_charPointer isKind]; rfl
  | primitive => rw [HirToMirContext.resolve_primitive isKind]; rfl
  | nested =>
      rw [HirToMirContext.resolve_isSome_iff_of_nested isKind]
      exact nested isKind progress.layouts

theorem getOrCompute_terminates (acyclic : Acyclic context.Contains) {struct : TypeId}
    (isCstruct : context.IsCstruct struct) :
    ∃ enough, ∀ fuel ≥ enough, ∀ layouts,
      (context.getOrComputeCstructLayout fuel layouts struct).isSome = true := by
  induction struct using (HirToMirContext.contains_wellFounded acyclic).induction with
  | _ struct ih =>
      obtain ⟨symbolId, isSymbol⟩ := Option.isSome_iff_exists.mp isCstruct
      have members : context.structMembers struct = context.structFields struct symbolId := by
        rw [HirToMirContext.structMembers, isSymbol]
        rfl
      obtain ⟨enough, each⟩ := @exists_enough (fun field fuel =>
          context.fieldKind (context.symbol field).typeId = .nested → ∀ layouts,
            (context.getOrComputeCstructLayout fuel layouts
              (context.symbol field).typeId).isSome = true) (context.structMembers struct) (by
        intro field member
        by_cases nested : context.fieldKind (context.symbol field).typeId = .nested
        · have contains : context.Contains struct (context.symbol field).typeId :=
            ⟨field, member, rfl, nested⟩
          obtain ⟨enough, ends⟩ := ih _ contains contains.inner
          exact ⟨enough, fun fuel isEnough _ => ends fuel isEnough⟩
        · exact ⟨0, fun _ _ isNested => absurd isNested nested⟩)
      refine ⟨enough + 1, fun fuel isEnough layouts => ?_⟩
      obtain ⟨fuel, rfl⟩ := Nat.exists_eq_add_of_le' (Nat.one_le_of_lt isEnough)
      have isEnough' : enough ≤ fuel := Nat.le_of_succ_le_succ isEnough
      rw [HirToMirContext.getOrComputeCstructLayout]
      cases layouts.get? struct with
      | some layout => rfl
      | none =>
          dsimp only
          rw [HirToMirContext.bind_symbolId isSymbol]
          dsimp only
          rw [Option.isSome_map, ← members]
          exact foldlM_isSome _ (fun field member progress =>
            addField_isSome (each field member fuel isEnough') progress) _

theorem requestLayouts_terminates (acyclic : Acyclic context.Contains) (requests : List TypeId)
    (structs : ∀ typeId ∈ requests, context.IsCstruct typeId) :
    ∃ enough, ∀ fuel ≥ enough, ∀ layouts,
      (context.requestLayouts fuel layouts requests).isSome = true := by
  induction requests with
  | nil => exact ⟨0, fun _ _ _ => rfl⟩
  | cons typeId requests ih =>
      obtain ⟨first, ofFirst⟩ :=
        getOrCompute_terminates acyclic (structs typeId List.mem_cons_self)
      obtain ⟨rest, ofRest⟩ := ih fun other member =>
        structs other (List.mem_cons_of_mem _ member)
      refine ⟨max first rest, fun fuel isEnough layouts => ?_⟩
      obtain ⟨computed, isComputed⟩ := Option.isSome_iff_exists.mp
        (ofFirst fuel ((le_max_left _ _).trans isEnough) layouts)
      rw [HirToMirContext.requestLayouts, isComputed, Option.bind_some, Option.isSome_map]
      exact ofRest fuel ((le_max_right _ _).trans isEnough) computed.2

section Regular

variable (regular : context.Regular) (acyclic : Acyclic context.Contains)

include regular acyclic in
/-- A right layout is what the C rules give. -/
theorem LaidOut.followsC {struct : TypeId} {layout : CStructLayout}
    (laidOut : LaidOut context struct layout) :
    FollowsC layout := by
  obtain ⟨structs, ordered, cdefs, names⟩ := laidOut.definitions
  obtain ⟨declared, isDeclared, extents, others⟩ := ordered.declareAll_eq regular acyclic
  have ofStruct : (context.declarationOf struct).extents declared =
      some (context.memberExtents struct) :=
    HirToMirContext.extents_declarationOf fun inner contains =>
      extents inner (.of_path (.single contains)) ((names _).mpr ⟨inner, .single contains, rfl⟩)
  have isNew : declared (context.declarationOf struct).name = none := by
    apply others
    intro member
    obtain ⟨inner, path, sameName⟩ := (names _).mp member
    exact HirToMirContext.name_ne_of_path regular acyclic path sameName
  have depCdefs : layout.depCdefs = (structs.map context.declarationOf).map Declaration.text := by
    rw [cdefs, List.map_map]
    rfl
  refine ⟨structs.map context.declarationOf, context.declarationOf struct, declared,
    context.memberExtents struct, ?_⟩
  exact
    { depCdefs := depCdefs
      ownCdef := laidOut.ownCdef
      cdefString := by
        rw [laidOut.cdefString, laidOut.ownCdef, depCdefs, List.flatMap_append,
          List.flatMap_singleton, ← List.flatMap_def]
        rfl
      cName := laidOut.cName.symm
      fields := laidOut.texts
      dependenciesDeclared := isDeclared
      ownDeclared := by
        rw [Declaration.declare, isNew, ofStruct]
        rfl
      ofFields := ofStruct
      offsets := laidOut.offsets
      size := by rw [laidOut.totalSize, HirToMirContext.extentOf_eq acyclic]
      alignment := by rw [laidOut.alignment, HirToMirContext.extentOf_eq acyclic]
      represented := laidOut.represented }

include regular in
/-- The definitions of a right layout are those of the struct and of all it contains. -/
theorem LaidOut.mem_definitions_iff {struct : TypeId} {layout : CStructLayout}
    (laidOut : LaidOut context struct layout) (text : Text) :
    text ∈ layout.definitions ↔
      ∃ inner, ReflTransGen context.Contains struct inner ∧ context.cdefOf inner = text := by
  obtain ⟨structs, ordered, cdefs, names⟩ := laidOut.definitions
  rw [CStructLayout.definitions, laidOut.ownCdef, cdefs, List.mem_append, List.mem_singleton]
  constructor
  · rintro (member | rfl)
    · obtain ⟨other, isMember, rfl⟩ := List.mem_map.mp member
      obtain ⟨inner, path, sameName⟩ := (names _).mp (List.mem_map_of_mem isMember)
      have same := (HirToMirContext.Inside.of_path path.to_reflTransGen).same regular
        (ordered.inside isMember) sameName
      exact ⟨inner, path.to_reflTransGen, congrArg Declaration.text same⟩
    · exact ⟨struct, .refl, rfl⟩
  · rintro ⟨inner, path, rfl⟩
    obtain rfl | path := reflTransGen_iff_eq_or_transGen.mp path
    · exact .inr rfl
    · exact .inl ((cdef_mem_iff regular ordered (.of_path path.to_reflTransGen)).mpr
        ((names _).mpr ⟨inner, path, rfl⟩))

include regular acyclic in
/-- All answers to requests are right layouts. -/
theorem requestLayouts_laidOut {fuel : Nat} (requests : List TypeId)
    (structs : ∀ typeId ∈ requests, context.IsCstruct typeId) :
    ∀ {layouts layouts' : Layouts} {answers : List (Option CStructLayout)},
      Cached context layouts →
      context.requestLayouts fuel layouts requests = some (answers, layouts') →
      ∀ typeId answer, (typeId, answer) ∈ requests.zip answers →
        ∃ layout, answer = some layout ∧ LaidOut context typeId layout := by
  induction requests with
  | nil => exact fun _ _ _ _ member => absurd member List.not_mem_nil
  | cons first requests ih =>
      intro layouts layouts' answers cached computed typeId answer member
      obtain ⟨⟨one, between⟩, isOne, runs⟩ := Option.bind_eq_some_iff.mp computed
      obtain ⟨⟨rest, final⟩, isRest, same⟩ := Option.map_eq_some_iff.mp runs
      cases same
      obtain ⟨layout, rfl, laidOut, cached', -, -⟩ := getOrCompute_computes regular acyclic fuel
        layouts first one between (structs first List.mem_cons_self) cached isOne
      obtain isFirst | isLater := List.mem_cons.mp member
      · cases isFirst
        exact ⟨layout, rfl, laidOut⟩
      · exact ih (fun other isMember =>
          structs other (List.mem_cons_of_mem _ isMember)) cached' isRest typeId answer isLater

end Regular

theorem Cached.empty : Cached context OrdMap.empty where
  laidOut _ _ known := nomatch known
  closed _ _ known _ := nomatch known

def named (name : Text) (typeId : TypeId) (isIdentifier : ' ' ∉ name) : Symbol :=
  ⟨name, none, typeId, false, true, isIdentifier⟩

/-- `@:cstruct class S { var field : T; }`, with the type 0 of the class and the type 1 of the
field. -/
def oneField (fieldType : TypeKind) (irType : IrType) : HirToMirContext where
  typeTable := OrdMap.ofList [(0, .classType 0), (1, fieldType)]
  symbol symbolId :=
    if symbolId = 0 then named "S".toList 0 (by decide)
    else if symbolId = 1 then named "field".toList 1 (by decide)
    else named "Ptr".toList 1 (by decide)
  fieldIndexMap := OrdMap.ofList [(1, (0, 0))]
  currentHirTypes := [(0, some 0)]
  convertType _ := irType

theorem oneField_members (fieldType : TypeKind) (irType : IrType) :
    (oneField fieldType irType).structFields 0 0 = [1] := by
  have own : (oneField fieldType irType).fieldsForType 0 = [(1, 0)] := rfl
  rw [HirToMirContext.structFields, own]
  dsimp only [List.isEmpty_cons]
  rw [if_neg (by decide), List.mergeSort_singleton]
  rfl

theorem oneField_isCstruct {fieldType : TypeKind} {irType : IrType}
    (notClass : ∀ symbolId, fieldType ≠ .classType symbolId) {typeId : TypeId}
    (isCstruct : (oneField fieldType irType).IsCstruct typeId) : typeId = 0 := by
  by_contra other
  have lookup : (oneField fieldType irType).typeTable.get? typeId =
      if typeId = 1 then some fieldType else none := by
    change ((OrdMap.empty.insert 0 (TypeKind.classType 0)).insert 1 fieldType).get? typeId = _
    rw [OrdMap.get?_insert, OrdMap.get?_insert_of_ne _ _ other]
    rfl
  rw [HirToMirContext.IsCstruct, HirToMirContext.cstructSymbol, lookup] at isCstruct
  by_cases isField : typeId = 1
  · rw [if_pos isField] at isCstruct
    cases fieldType with
    | classType symbolId => exact notClass symbolId rfl
    | _ => exact Bool.false_ne_true isCstruct
  · rw [if_neg isField] at isCstruct
    exact Bool.false_ne_true isCstruct

theorem oneField_member {fieldType : TypeKind} {irType : IrType}
    (notClass : ∀ symbolId, fieldType ≠ .classType symbolId) {typeId : TypeId} {field : SymbolId}
    (member : field ∈ (oneField fieldType irType).structMembers typeId) :
    typeId = 0 ∧ field = 1 := by
  have isStruct := oneField_isCstruct notClass (HirToMirContext.isCstruct_of_member member)
  subst isStruct
  have members : (oneField fieldType irType).structMembers 0 = [1] :=
    oneField_members fieldType irType
  rw [members] at member
  exact ⟨rfl, List.mem_singleton.mp member⟩

theorem oneField_not_contains {fieldType : TypeKind} {irType : IrType}
    (notClass : ∀ symbolId, fieldType ≠ .classType symbolId) {outer inner : TypeId} :
    ¬(oneField fieldType irType).Contains outer inner := by
  intro contains
  have isStruct := oneField_isCstruct notClass contains.inner
  obtain ⟨field, member, isField, nested⟩ := contains
  obtain ⟨rfl, rfl⟩ := oneField_member notClass member
  exact Nat.one_ne_zero (isField.trans isStruct)

theorem oneField_acyclic {fieldType : TypeKind} {irType : IrType}
    (notClass : ∀ symbolId, fieldType ≠ .classType symbolId) :
    Acyclic (oneField fieldType irType).Contains := by
  intro struct path
  obtain ⟨inner, contains, -⟩ := TransGen.head'_iff.mp path
  exact oneField_not_contains notClass contains

/-- `class S { var field : Ptr<S>; }`, a list. -/
def list : HirToMirContext := oneField (.abstract 2 [0]) .i64

theorem list_regular : list.Regular where
  represented struct field member := by
    obtain ⟨rfl, rfl⟩ := oneField_member (by nofun) member
    exact trivial
  pointers struct field member isConst target isPointer isCstruct := by
    obtain ⟨rfl, rfl⟩ := oneField_member (by nofun) member
    have isStruct : target = 0 := oneField_isCstruct (by nofun) isCstruct
    exact .inr (isStruct ▸ .refl)
  names struct inner inner' path path' _ := by
    have alone : ∀ other, ReflTransGen list.Contains struct other → other = struct := by
      intro other path
      obtain rfl | path := reflTransGen_iff_eq_or_transGen.mp path
      · rfl
      · obtain ⟨_, contains, -⟩ := TransGen.head'_iff.mp path
        exact absurd contains (oneField_not_contains (by nofun))
    rw [alone inner path, alone inner' path']
  sizes struct isCstruct := by
    have members : list.structMembers 0 = [1] := oneField_members _ _
    have acyclic : Acyclic list.Contains := oneField_acyclic (by nofun)
    have isKind : list.fieldKind (list.symbol 1).typeId = .pointer false (some 0) := rfl
    rw [oneField_isCstruct (by nofun) isCstruct, HirToMirContext.extentOf_eq acyclic,
      HirToMirContext.memberExtents, members, List.map_singleton,
      (fieldExtent_of_kind isKind (.inl ⟨_, _, rfl⟩)).2]
    decide

/-- `class S { var field : Bool; }` -/
def flag : HirToMirContext := oneField .other .bool

def flagLayout : CStructLayout :=
  LayoutProgress.finish ⟨4, 4, [⟨1, "field".toList, 0, .bool, "int".toList⟩], [], OrdMap.empty⟩
    "S".toList

theorem flag_answers : flag.Answers [0] [some flagLayout] := by
  refine ⟨fun typeId member => List.mem_singleton.mp member ▸ rfl, 1,
    OrdMap.empty.insert 0 flagLayout, ?_⟩
  have computed : flag.getOrComputeCstructLayout 1 OrdMap.empty 0 =
      some (some flagLayout, OrdMap.empty.insert 0 flagLayout) := by
    have members : flag.structFields 0 0 = [1] := oneField_members _ _
    have isSymbol : (flag.typeTable.get? 0).bind TypeKind.symbolId = some 0 := rfl
    rw [HirToMirContext.getOrComputeCstructLayout, OrdMap.get?_empty]
    dsimp only
    rw [isSymbol]
    dsimp only
    rw [members]
    rfl
  rw [HirToMirContext.requestLayouts, computed]
  rfl

end Rayzor.CStructs
