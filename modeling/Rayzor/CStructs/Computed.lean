import Rayzor.CStructs.Fields

/-!
Contract: layouts that are computed in any order are those of C.
-/

namespace Rayzor.CStructs

open Library Ir Relation

structure LaidOut (context : HirToMirContext) (typeId : TypeId) (layout : CStructLayout) : Prop where
  cName : layout.cName = context.structName typeId
  typedef : layout.typedef = context.cdefOf typeId
  ownCdef : layout.ownCdef = context.cdefOf typeId
  cdefString : layout.cdefString = layout.depCdefs.flatten ++ layout.ownCdef
  totalSize : layout.totalSize.toNat = (context.extentOf typeId).size
  alignment : layout.alignment.toNat = (context.extentOf typeId).align
  texts : layout.fields.map (fun field => (field.cType, field.name)) =
    (context.declarationOf typeId).fields.map fun field => (field.1.text, field.2)
  offsets : layout.fields.map (fun field => field.byteOffset.toNat) =
    offsetsFrom 0 (context.memberExtents typeId)
  represented : List.Forall₂ (fun field extent => field.irType.size = some extent.size)
    layout.fields (context.memberExtents typeId)
  definitions : ∃ structs, Ordered context typeId structs ∧
    layout.depCdefs = structs.map context.cdefOf ∧
    ∀ name, name ∈ structs.map context.structName ↔
      ∃ inner, TransGen context.Contains typeId inner ∧ context.structName inner = name

/-- Cached layouts are right, and with each struct those it contains are cached. -/
structure Cached (context : HirToMirContext) (layouts : Layouts) : Prop where
  laidOut : ∀ typeId layout, layouts.get? typeId = some layout →
    context.IsCstruct typeId ∧ LaidOut context typeId layout
  closed : ∀ outer inner, (layouts.get? outer).isSome = true → context.Contains outer inner →
    (layouts.get? inner).isSome = true

theorem Cached.closed_path {context : HirToMirContext} {layouts : Layouts}
    (cached : Cached context layouts) {outer inner : TypeId}
    (path : ReflTransGen context.Contains outer inner)
    (known : (layouts.get? outer).isSome = true) : (layouts.get? inner).isSome = true := by
  induction path with
  | refl => exact known
  | tail _ contains ih => exact cached.closed _ _ ih contains

/-- A cache that has grown by structs within bounds. -/
structure Grown (layouts layouts' : Layouts) (within : TypeId → Prop) : Prop where
  kept : ∀ typeId, (layouts.get? typeId).isSome = true → (layouts'.get? typeId).isSome = true
  new : ∀ typeId, (layouts'.get? typeId).isSome = true →
    (layouts.get? typeId).isSome = true ∨ within typeId

namespace Grown

variable {layouts layouts' layouts'' : Layouts} {within within' : TypeId → Prop}

theorem refl (layouts : Layouts) (within : TypeId → Prop) : Grown layouts layouts within :=
  ⟨fun _ => id, fun _ => .inl⟩

theorem trans (first : Grown layouts layouts' within) (second : Grown layouts' layouts'' within) :
    Grown layouts layouts'' within :=
  ⟨fun typeId known => second.kept typeId (first.kept typeId known),
    fun typeId known => (second.new typeId known).elim (first.new typeId) .inr⟩

theorem mono (grown : Grown layouts layouts' within)
    (weaker : ∀ typeId, within typeId → within' typeId) : Grown layouts layouts' within' :=
  ⟨grown.kept, fun typeId known => (grown.new typeId known).imp_right (weaker typeId)⟩

end Grown

/-- What a computation owes: a right layout, and a cache that stays right. -/
def Computes (context : HirToMirContext) (compute : Computation) : Prop :=
  ∀ layouts typeId answer layouts', context.IsCstruct typeId → Cached context layouts →
    compute layouts typeId = some (answer, layouts') →
    ∃ layout, answer = some layout ∧ LaidOut context typeId layout ∧ Cached context layouts' ∧
      (layouts'.get? typeId).isSome = true ∧
      Grown layouts layouts' (ReflTransGen context.Contains typeId)

variable {context : HirToMirContext} (regular : context.Regular)
  (acyclic : Acyclic context.Contains)

structure DefinesWithin (context : HirToMirContext) (struct : TypeId) (depCdefs : List Text)
    (structs : List TypeId) : Prop where
  ordered : Ordered context struct structs
  cdefs : depCdefs = structs.map context.cdefOf
  within : ∀ name ∈ structs.map context.structName,
    ∃ inner, TransGen context.Contains struct inner ∧ context.structName inner = name

include regular in
/-- Pushing a right layout of a struct within adds it, with all it contains. -/
theorem pushLayout_within {struct nested : TypeId} {depCdefs : List Text} {structs : List TypeId}
    {layout : CStructLayout} (defines : DefinesWithin context struct depCdefs structs)
    (laidOut : LaidOut context nested layout) (strictly : context.StrictlyInside struct nested) :
    ∃ structs', DefinesWithin context struct (pushLayout depCdefs layout) structs' ∧
      (∀ name ∈ structs.map context.structName, name ∈ structs'.map context.structName) ∧
      context.structName nested ∈ structs'.map context.structName := by
  obtain ⟨others, orderedOthers, isOthers, names⟩ := laidOut.definitions
  obtain ⟨between, orderedBetween, isBetween, namesBetween⟩ :=
    foldl_pushNew regular defines.ordered (orderedOthers.mono strictly.inside)
  have behind : ∀ inner, context.Contains nested inner →
      context.structName inner ∈ between.map context.structName := fun inner contains =>
    (namesBetween _).mpr (.inr ((names _).mpr ⟨inner, .single contains, rfl⟩))
  obtain ⟨final, orderedFinal, isFinal, namesFinal⟩ :=
    pushNew_cdef regular orderedBetween strictly.inside behind
  have pushed : pushLayout depCdefs layout = final.map context.cdefOf := by
    rw [pushLayout, defines.cdefs, isOthers, isBetween, laidOut.typedef]
    exact isFinal
  refine ⟨final, ⟨orderedFinal, pushed, ?_⟩, ?_, (namesFinal _).mpr (.inr List.mem_cons_self)⟩
  · intro name member
    obtain inBetween | isNested := (namesFinal name).mp member
    · obtain already | inOthers := (namesBetween name).mp inBetween
      · exact defines.within name already
      · obtain ⟨inner, path, rfl⟩ := (names name).mp inOthers
        obtain ⟨inner', path', same⟩ := strictly inner path.to_reflTransGen
        exact ⟨inner', path', congrArg Declaration.name same⟩
    · obtain ⟨inner', path', same⟩ := strictly nested .refl
      rw [List.mem_singleton.mp isNested]
      exact ⟨inner', path', congrArg Declaration.name same⟩
  · exact fun name member => (namesFinal name).mpr (.inl ((namesBetween name).mpr (.inl member)))

include regular in
/-- The definitions behind a pointer of a struct are within the struct, as long as the struct itself
has no layout yet. -/
theorem pointerCdefs_within {struct field : TypeId} {isConst : Bool} {target : Option TypeId}
    {layouts : Layouts} {depCdefs : List Text} {structs : List TypeId}
    (member : field ∈ context.structMembers struct)
    (isPointer : context.fieldKind (context.symbol field).typeId = .pointer isConst target)
    (cached : Cached context layouts) (notCached : layouts.get? struct = none)
    (defines : DefinesWithin context struct depCdefs structs) :
    ∃ structs', DefinesWithin context struct (context.pointerCdefs layouts depCdefs target) structs' ∧
      ∀ name ∈ structs.map context.structName, name ∈ structs'.map context.structName := by
  have same : ∃ structs', DefinesWithin context struct depCdefs structs' ∧
      ∀ name ∈ structs.map context.structName, name ∈ structs'.map context.structName :=
    ⟨structs, defines, fun _ => id⟩
  cases target with
  | none => exact same
  | some target =>
      rw [HirToMirContext.pointerCdefs]
      by_cases isCstruct : context.IsCstruct target
      · rw [if_pos isCstruct]
        cases known : layouts.get? target with
        | none => exact same
        | some layout =>
            have laidOut := (cached.laidOut target layout known).2
            obtain inside | outside := regular.pointers struct field member isConst target isPointer
              isCstruct
            · obtain ⟨structs', defines', kept, -⟩ :=
                pushLayout_within regular defines laidOut inside
              exact ⟨structs', defines', kept⟩
            · -- With the target all it contains is cached, also the struct.
              have isCached := cached.closed_path outside (by rw [known]; rfl)
              rw [notCached] at isCached
              exact absurd isCached (by decide)
      · rw [if_neg isCstruct]
        exact same

structure FieldResolved (context : HirToMirContext) (struct : TypeId) (structs : List TypeId)
    (layouts : Layouts) (typeId : TypeId) (resolved : Resolved) : Prop where
  size : resolved.size.toNat = (context.fieldExtent typeId).size
  align : resolved.align.toNat = (context.fieldExtent typeId).align
  cType : resolved.cType = (context.cTypeOf typeId).text
  irType : resolved.irType.size = some (context.fieldExtent typeId).size
  cached : Cached context resolved.layouts
  grown : Grown layouts resolved.layouts (TransGen context.Contains struct)
  definitions : ∃ structs', DefinesWithin context struct resolved.depCdefs structs' ∧
    (∀ name ∈ structs.map context.structName, name ∈ structs'.map context.structName) ∧
    (context.fieldKind typeId = .nested →
      context.structName typeId ∈ structs'.map context.structName)
  isCached : context.fieldKind typeId = .nested → (resolved.layouts.get? typeId).isSome = true

theorem FieldResolved.word {struct typeId : TypeId} {structs structs' : List TypeId}
    {layouts : Layouts} {depCdefs : List Text} {cType : Text} {irType : IrType}
    (notNested : context.fieldKind typeId ≠ .nested)
    (extent : context.fieldExtent typeId = ⟨8, 8⟩) (isText : cType = (context.cTypeOf typeId).text)
    (isWord : irType.size = some 8) (cached : Cached context layouts)
    (defines : DefinesWithin context struct depCdefs structs')
    (kept : ∀ name ∈ structs.map context.structName, name ∈ structs'.map context.structName) :
    FieldResolved context struct structs layouts typeId
      ⟨8, 8, cType, irType, depCdefs, layouts⟩ where
  size := by rw [extent]; rfl
  align := by rw [extent]; rfl
  cType := isText
  irType := by rw [extent]; exact isWord
  cached := cached
  grown := .refl _ _
  definitions := ⟨structs', defines, kept, fun nested => absurd nested notNested⟩
  isCached nested := absurd nested notNested

theorem fieldExtent_of_kind {typeId : TypeId} {kind : FieldKind}
    (isKind : context.fieldKind typeId = kind)
    (isWord : (∃ isConst target, kind = .pointer isConst target) ∨ kind = .sizeT ∨
      kind = .charPointer) :
    context.fieldKind typeId ≠ .nested ∧ context.fieldExtent typeId = ⟨8, 8⟩ := by
  have notNested : context.fieldKind typeId ≠ .nested := by
    rw [isKind]
    rintro rfl
    simp at isWord
  refine ⟨notNested, ?_⟩
  rw [HirToMirContext.fieldExtent, if_neg notNested, HirToMirContext.cTypeOf, isKind]
  obtain ⟨isConst, target, rfl⟩ | rfl | rfl := isWord
  · rfl
  · rfl
  · rfl

theorem resolvePrimitive_resolved {struct typeId : TypeId} {structs : List TypeId}
    {layouts : Layouts} {depCdefs : List Text}
    (isKind : context.fieldKind typeId = .primitive)
    (represented : context.Represented typeId) (cached : Cached context layouts)
    (defines : DefinesWithin context struct depCdefs structs) :
    FieldResolved context struct structs layouts typeId
      (HirToMirContext.resolvePrimitive layouts (context.convertType typeId) depCdefs) := by
  have notNested : context.fieldKind typeId ≠ .nested := by rw [isKind]; decide
  have isText : (context.cTypeOf typeId).text =
      (HirToMirContext.primitiveCType (context.convertType typeId)).text := by
    rw [HirToMirContext.cTypeOf, isKind]
  have extent : context.fieldExtent typeId =
      ((HirToMirContext.primitiveCType (context.convertType typeId)).extent
        fun _ => none).getD ⟨8, 8⟩ := by
    rw [HirToMirContext.fieldExtent, if_neg notNested, HirToMirContext.cTypeOf, isKind]
  rw [HirToMirContext.Represented, isKind] at represented
  generalize context.convertType typeId = irType at represented isText extent ⊢
  cases irType with
  | bool => simp at represented
  | i32 => exact .word notNested extent isText.symm rfl cached defines fun _ => id
  | _ =>
      have isWord := (represented.resolve_left (by simp)).2
      exact .word notNested extent isText.symm isWord cached defines fun _ => id

variable {compute : Computation}

include regular in
/-- A field is resolved to its C type. -/
theorem resolve_resolved (computes : Computes context compute) {struct field : TypeId}
    (member : field ∈ context.structMembers struct) {layouts : Layouts} {depCdefs : List Text}
    {structs : List TypeId} (cached : Cached context layouts)
    (notCached : layouts.get? struct = none)
    (defines : DefinesWithin context struct depCdefs structs) {resolved : Resolved}
    (isResolved : context.resolveCstructFieldType compute layouts (context.symbol field).typeId
      (context.convertType (context.symbol field).typeId) depCdefs = some resolved) :
    FieldResolved context struct structs layouts (context.symbol field).typeId resolved := by
  have represented := regular.represented struct field member
  cases isKind : context.fieldKind (context.symbol field).typeId with
  | pointer isConst target =>
      rw [HirToMirContext.resolve_pointer isKind] at isResolved
      cases isResolved
      have isWord := fieldExtent_of_kind isKind (.inl ⟨isConst, target, rfl⟩)
      obtain ⟨structs', defines', kept⟩ :=
        pointerCdefs_within regular member isKind cached notCached defines
      exact .word isWord.1 isWord.2 rfl rfl cached defines' kept
  | sizeT =>
      rw [HirToMirContext.resolve_sizeT isKind] at isResolved
      cases isResolved
      have isWord := fieldExtent_of_kind isKind (.inr (.inl rfl))
      exact .word isWord.1 isWord.2 rfl rfl cached defines fun _ => id
  | charPointer =>
      rw [HirToMirContext.resolve_charPointer isKind] at isResolved
      cases isResolved
      have isWord := fieldExtent_of_kind isKind (.inr (.inr rfl))
      exact .word isWord.1 isWord.2 rfl rfl cached defines fun _ => id
  | primitive =>
      rw [HirToMirContext.resolve_primitive isKind] at isResolved
      cases isResolved
      exact resolvePrimitive_resolved isKind represented cached defines
  | nested =>
      have contains : context.Contains struct (context.symbol field).typeId :=
        ⟨field, member, rfl, isKind⟩
      have isSome : (compute layouts (context.symbol field).typeId).isSome = true := by
        rw [← HirToMirContext.resolve_isSome_iff_of_nested isKind, isResolved]
        rfl
      obtain ⟨⟨answer, layouts'⟩, computed⟩ := Option.isSome_iff_exists.mp isSome
      obtain ⟨nested, rfl, laidOut, cached', isCached, grown⟩ :=
        computes layouts _ answer layouts' contains.inner cached computed
      rw [HirToMirContext.resolve_nested isKind computed] at isResolved
      cases isResolved
      have extent : context.fieldExtent (context.symbol field).typeId =
          context.extentOf (context.symbol field).typeId := if_pos isKind
      rw [HirToMirContext.Represented, isKind] at represented
      have definitions : ∃ structs', DefinesWithin context struct
          (if depCdefs.contains nested.cdefString then depCdefs else pushLayout depCdefs nested)
            structs' ∧
          (∀ name ∈ structs.map context.structName, name ∈ structs'.map context.structName) ∧
          context.structName (context.symbol field).typeId ∈ structs'.map context.structName := by
        by_cases isThere : depCdefs.contains nested.cdefString = true
        · -- The whole definition is there only where the struct is known.
          rw [if_pos isThere]
          rw [List.contains_iff_mem, laidOut.cdefString, laidOut.ownCdef, defines.cdefs] at isThere
          exact ⟨structs, defines, fun _ => id, known_of_cdef isThere⟩
        · rw [if_neg isThere]
          exact pushLayout_within regular defines laidOut (.of_path (.single contains))
      obtain ⟨structs', defines', kept, known⟩ := definitions
      exact
        { size := by rw [extent]; exact laidOut.totalSize
          align := by rw [extent]; exact laidOut.alignment
          cType := by
            rw [HirToMirContext.cTypeOf, isKind]
            exact laidOut.cName
          irType := by
            rw [extent, represented]
            rfl
          cached := cached'
          grown := grown.mono fun inner path => .head' contains path
          definitions := ⟨structs', defines', kept, fun _ => known⟩
          isCached := fun _ => isCached }

noncomputable def fieldExtents (context : HirToMirContext) (fields : List SymbolId) : List Extent :=
  fields.map fun field => context.fieldExtent (context.symbol field).typeId

theorem offsetsFrom_concat (extents : List Extent) (extent : Extent) : ∀ offset,
    offsetsFrom offset (extents ++ [extent]) =
      offsetsFrom offset extents ++ [roundUp (endFrom offset extents) extent.align] := by
  induction extents with
  | nil => exact fun _ => rfl
  | cons first extents ih =>
      intro offset
      rw [List.cons_append, offsetsFrom, ih]
      rfl

theorem endFrom_append (extents extents' : List Extent) : ∀ offset,
    endFrom offset (extents ++ extents') = endFrom (endFrom offset extents) extents' := by
  induction extents with
  | nil => exact fun _ => rfl
  | cons first extents ih => exact fun offset => ih _

/-- The loop's state behind some of the fields. -/
structure Progressed (context : HirToMirContext) (struct : TypeId) (layouts : Layouts)
    (done : List SymbolId) (progress : LayoutProgress) : Prop where
  byteOffset : progress.byteOffset.toNat = endFrom 0 (fieldExtents context done)
  maxAlign : progress.maxAlign.toNat =
    (fieldExtents context done).foldl (fun align extent => max align extent.align) 1
  texts : progress.layoutFields.map (fun field => (field.cType, field.name)) =
    done.map fun field => ((context.cTypeOf (context.symbol field).typeId).text,
      (context.symbol field).name)
  offsets : progress.layoutFields.map (fun field => field.byteOffset.toNat) =
    offsetsFrom 0 (fieldExtents context done)
  represented : List.Forall₂ (fun field extent => field.irType.size = some extent.size)
    progress.layoutFields (fieldExtents context done)
  definitions : ∃ structs, DefinesWithin context struct progress.depCdefs structs ∧
    ∀ field ∈ done, context.fieldKind (context.symbol field).typeId = .nested →
      context.structName (context.symbol field).typeId ∈ structs.map context.structName
  cached : Cached context progress.layouts
  grown : Grown layouts progress.layouts (TransGen context.Contains struct)
  isCached : ∀ field ∈ done, context.fieldKind (context.symbol field).typeId = .nested →
    (progress.layouts.get? (context.symbol field).typeId).isSome = true

theorem Progressed.start {struct : TypeId} {layouts : Layouts} (cached : Cached context layouts) :
    Progressed context struct layouts [] ⟨0, 1, [], [], layouts⟩ where
  byteOffset := rfl
  maxAlign := rfl
  texts := rfl
  offsets := rfl
  represented := .nil
  definitions := ⟨[], ⟨.nil, rfl, fun _ member => absurd member List.not_mem_nil⟩,
    fun _ member => absurd member List.not_mem_nil⟩
  cached := cached
  grown := .refl _ _
  isCached _ member := absurd member List.not_mem_nil

include acyclic in
/-- The struct itself is not cached on the way. -/
theorem Progressed.notCached {struct : TypeId} {layouts : Layouts} {done : List SymbolId}
    {progress : LayoutProgress} (progressed : Progressed context struct layouts done progress)
    (notCached : layouts.get? struct = none) : progress.layouts.get? struct = none := by
  rw [← Option.not_isSome_iff_eq_none]
  intro isCached
  obtain already | path := progressed.grown.new struct isCached
  · rw [notCached] at already
    exact absurd already (by decide)
  · exact acyclic struct path

include acyclic in
/-- One more field, as long as the struct fits into the machine's words. -/
theorem Progressed.add {struct field : TypeId} {layouts : Layouts} {done : List SymbolId}
    {progress : LayoutProgress} (progressed : Progressed context struct layouts done progress)
    {structs : List TypeId}
    (known : ∀ field ∈ done, context.fieldKind (context.symbol field).typeId = .nested →
      context.structName (context.symbol field).typeId ∈ structs.map context.structName)
    {resolved : Resolved}
    (isResolved : FieldResolved context struct structs progress.layouts
      (context.symbol field).typeId resolved)
    (fits : endFrom 0 (fieldExtents context (done ++ [field])) < 2 ^ 32) :
    Progressed context struct layouts (done ++ [field])
      (progress.add field (context.symbol field).name resolved) := by
  have extents : fieldExtents context (done ++ [field]) = fieldExtents context done ++
      [context.fieldExtent (context.symbol field).typeId] := List.map_append
  have aligned := HirToMirContext.fieldExtent_aligned acyclic (context.symbol field).typeId
  rw [HirToMirContext.Aligned, ← isResolved.align] at aligned
  have positive : 0 < resolved.align := by
    rw [UInt32.lt_iff_toNat_lt]
    have zero : (0 : UInt32).toNat = 0 := rfl
    omega
  rw [extents, endFrom_append] at fits
  have atEnd : endFrom (endFrom 0 (fieldExtents context done))
      [context.fieldExtent (context.symbol field).typeId] =
      roundUp (endFrom 0 (fieldExtents context done)) resolved.align.toNat +
        resolved.size.toNat := by
    rw [isResolved.align, isResolved.size]
    rfl
  rw [atEnd] at fits
  have rounded : (alignTo progress.byteOffset resolved.align).toNat =
      roundUp (endFrom 0 (fieldExtents context done)) resolved.align.toNat := by
    rw [alignTo_toNat aligned, progressed.byteOffset]
    rw [progressed.byteOffset]
    exact (Nat.le_add_right _ _).trans_lt fits
  obtain ⟨structs', defines', kept, isKnown⟩ := isResolved.definitions
  unfold LayoutProgress.add
  simp only [if_pos positive]
  constructor
  · rw [extents, endFrom_append, atEnd, UInt32.toNat_add, rounded]
    exact Nat.mod_eq_of_lt fits
  · rw [extents, List.foldl_append, List.foldl_cons, List.foldl_nil, ← progressed.maxAlign,
      ← isResolved.align]
    by_cases larger : progress.maxAlign < resolved.align
    · rw [if_pos larger]
      exact (max_eq_right (UInt32.lt_iff_toNat_lt.mp larger).le).symm
    · rw [if_neg larger]
      have le := Nat.not_lt.mp fun lt => larger (UInt32.lt_iff_toNat_lt.mpr lt)
      exact (max_eq_left le).symm
  · rw [List.map_append, List.map_append, progressed.texts, List.map_singleton,
      List.map_singleton, isResolved.cType]
  · rw [List.map_append, List.map_singleton, progressed.offsets, extents, offsetsFrom_concat,
      rounded, isResolved.align]
  · rw [extents]
    exact List.rel_append progressed.represented (.cons isResolved.irType .nil)
  · refine ⟨structs', defines', fun other member nested => ?_⟩
    obtain earlier | isLast := List.mem_append.mp member
    · exact kept _ (known other earlier nested)
    · rw [List.mem_singleton.mp isLast] at nested ⊢
      exact isKnown nested
  · exact isResolved.cached
  · exact progressed.grown.trans isResolved.grown
  · intro other member nested
    obtain earlier | isLast := List.mem_append.mp member
    · exact isResolved.grown.kept _ (progressed.isCached other earlier nested)
    · rw [List.mem_singleton.mp isLast] at nested ⊢
      exact isResolved.isCached nested

theorem positive_of_aligned {extent : Extent} (aligned : HirToMirContext.Aligned extent) :
    0 < extent.align := by
  unfold HirToMirContext.Aligned at aligned
  omega

include regular acyclic in
/-- All fields of a struct end within its size. -/
theorem endFrom_lt {struct : TypeId} (isCstruct : context.IsCstruct struct)
    {done rest : List SymbolId} (members : context.structMembers struct = done ++ rest) :
    endFrom 0 (fieldExtents context done) < 2 ^ 32 := by
  have aligned : ∀ fields, ∀ extent ∈ fieldExtents context fields,
      HirToMirContext.Aligned extent := by
    intro fields extent isExtent
    obtain ⟨field, _, rfl⟩ := List.mem_map.mp isExtent
    exact HirToMirContext.fieldExtent_aligned acyclic _
  have split : context.memberExtents struct =
      fieldExtents context done ++ fieldExtents context rest := by
    rw [HirToMirContext.memberExtents, members, List.map_append]
    rfl
  have structAligned : HirToMirContext.Aligned (context.extentOf struct) := by
    rw [HirToMirContext.extentOf_eq acyclic]
    exact HirToMirContext.structExtent_aligned (aligned (context.structMembers struct))
  calc endFrom 0 (fieldExtents context done)
      ≤ endFrom (endFrom 0 (fieldExtents context done)) (fieldExtents context rest) :=
        le_endFrom _ (fun extent member => positive_of_aligned (aligned rest extent member)) _
    _ = endFrom 0 (context.memberExtents struct) := by rw [split, endFrom_append]
    _ ≤ roundUp (endFrom 0 (context.memberExtents struct)) (context.extentOf struct).align :=
        le_roundUp _ _ (positive_of_aligned structAligned)
    _ = (context.extentOf struct).size := by
        rw [HirToMirContext.extentOf_eq acyclic]
        rfl
    _ < 2 ^ 32 := regular.sizes struct isCstruct

include regular acyclic in
/-- The loop over the rest of the fields. -/
theorem foldlM_progressed (computes : Computes context compute) {struct : TypeId}
    {layouts : Layouts} (notCached : layouts.get? struct = none) (rest : List SymbolId) :
    ∀ (done : List SymbolId) (progress progress' : LayoutProgress),
      context.structMembers struct = done ++ rest →
      Progressed context struct layouts done progress →
      rest.foldlM (context.addField compute) progress = some progress' →
      Progressed context struct layouts (context.structMembers struct) progress' := by
  induction rest with
  | nil =>
      intro done progress progress' members progressed isLast
      cases isLast
      rw [members, List.append_nil]
      exact progressed
  | cons field rest ih =>
      intro done progress progress' members progressed runs
      rw [List.foldlM_cons] at runs
      obtain ⟨between, added, runs⟩ := Option.bind_eq_some_iff.mp runs
      obtain ⟨resolved, isResolved, rfl⟩ := Option.map_eq_some_iff.mp added
      have member : field ∈ context.structMembers struct := by rw [members]; simp
      obtain ⟨structs, defines, known⟩ := progressed.definitions
      have fieldResolved := resolve_resolved regular computes member progressed.cached
        (progressed.notCached acyclic notCached) defines isResolved
      rw [List.append_cons] at members
      apply ih _ _ _ members _ runs
      apply progressed.add acyclic known fieldResolved
      exact endFrom_lt regular acyclic (HirToMirContext.isCstruct_of_member member) members

include regular acyclic in
/-- The layout behind the last field. -/
theorem Progressed.finish {struct : TypeId} {symbolId : SymbolId} {layouts : Layouts}
    {progress : LayoutProgress} (isSymbol : context.cstructSymbol struct = some symbolId)
    (progressed : Progressed context struct layouts (context.structMembers struct) progress) :
    LaidOut context struct (progress.finish (context.cName symbolId)) := by
  have isCstruct : context.IsCstruct struct := by
    rw [HirToMirContext.IsCstruct, isSymbol]
    rfl
  have isName : context.structName struct = context.cName symbolId := by
    rw [HirToMirContext.structName, isSymbol]
    rfl
  have extent : context.extentOf struct =
      structExtent (fieldExtents context (context.structMembers struct)) :=
    HirToMirContext.extentOf_eq acyclic struct
  have isAlign : progress.maxAlign.toNat = (context.extentOf struct).align := by
    rw [progressed.maxAlign, extent]
    rfl
  have aligned : progress.maxAlign.toNat = 1 ∨ progress.maxAlign.toNat = 4 ∨
      progress.maxAlign.toNat = 8 := by
    rw [isAlign, extent]
    apply HirToMirContext.structExtent_aligned
    intro fieldExtent isExtent
    obtain ⟨field, _, rfl⟩ := List.mem_map.mp isExtent
    exact HirToMirContext.fieldExtent_aligned acyclic _
  have positive : 0 < progress.maxAlign := by
    rw [UInt32.lt_iff_toNat_lt]
    have zero : (0 : UInt32).toNat = 0 := rfl
    omega
  have size : roundUp progress.byteOffset.toNat progress.maxAlign.toNat =
      (context.extentOf struct).size := by
    rw [progressed.byteOffset, isAlign, extent]
    rfl
  have texts : progress.layoutFields.map (fun field => (field.cType, field.name)) =
      (context.declarationOf struct).fields.map fun field => (field.1.text, field.2) := by
    rw [progressed.texts, HirToMirContext.declarationOf, List.map_map]
    rfl
  have typedef : typedefText (progress.layoutFields.map fun field => (field.cType, field.name))
      (context.cName symbolId) = context.cdefOf struct := by
    rw [texts, ← isName]
    rfl
  obtain ⟨structs, defines, known⟩ := progressed.definitions
  exact
    { cName := isName.symm
      typedef := typedef
      ownCdef := typedef
      cdefString := rfl
      totalSize := by
        unfold LayoutProgress.finish
        simp only [if_pos positive]
        rw [alignTo_toNat aligned (size ▸ regular.sizes struct isCstruct), size]
      alignment := isAlign
      texts := texts
      offsets := progressed.offsets
      represented := progressed.represented
      definitions := by
        refine ⟨structs, defines.ordered, defines.cdefs, fun name => ⟨defines.within name, ?_⟩⟩
        rintro ⟨inner, path, rfl⟩
        have direct : ∀ inner, context.Contains struct inner →
            context.structName inner ∈ structs.map context.structName := by
          rintro _ ⟨field, member, rfl, nested⟩
          exact known field member nested
        obtain ⟨middle, contains, path⟩ := TransGen.head'_iff.mp path
        obtain rfl | path := reflTransGen_iff_eq_or_transGen.mp path
        · exact direct inner contains
        · exact defines.ordered.known_of_path regular path (.of_path (.single contains))
            (direct middle contains) }

include regular acyclic in
theorem getOrCompute_computes (fuel : Nat) :
    Computes context (context.getOrComputeCstructLayout fuel) := by
  induction fuel with
  | zero => exact fun _ _ _ _ _ _ computed => nomatch computed
  | succ fuel ih =>
      intro layouts struct answer layouts' isCstruct cached computed
      rw [HirToMirContext.getOrComputeCstructLayout] at computed
      cases known : layouts.get? struct with
      | some layout =>
          rw [known] at computed
          cases computed
          exact ⟨layout, rfl, (cached.laidOut struct layout known).2, cached,
            by rw [known]; rfl, .refl _ _⟩
      | none =>
          obtain ⟨symbolId, isSymbol⟩ := Option.isSome_iff_exists.mp isCstruct
          rw [known] at computed
          dsimp only at computed
          rw [HirToMirContext.bind_symbolId isSymbol] at computed
          obtain ⟨progress, runs, finished⟩ := Option.map_eq_some_iff.mp computed
          cases finished
          have members : context.structMembers struct = context.structFields struct symbolId := by
            rw [HirToMirContext.structMembers, isSymbol]
            rfl
          rw [← members] at runs
          have progressed := foldlM_progressed regular acyclic ih known _ [] _ _
            rfl (.start cached) runs
          have laidOut := progressed.finish regular acyclic isSymbol
          refine ⟨_, rfl, laidOut, ⟨?_, ?_⟩, by rw [OrdMap.get?_insert_self]; rfl, ⟨?_, ?_⟩⟩
          · intro other layout isThere
            rw [OrdMap.get?_insert] at isThere
            by_cases same : other = struct
            · rw [if_pos same] at isThere
              cases isThere
              exact same ▸ ⟨isCstruct, laidOut⟩
            · rw [if_neg same] at isThere
              exact progressed.cached.laidOut other layout isThere
          · intro outer inner isThere contains
            have isCached : (progress.layouts.get? inner).isSome = true := by
              by_cases same : outer = struct
              · obtain ⟨field, member, rfl, nested⟩ := contains
                exact progressed.isCached field (same ▸ member) nested
              · rw [OrdMap.get?_insert_of_ne _ _ same] at isThere
                exact progressed.cached.closed outer inner isThere contains
            rw [OrdMap.get?_insert]
            split_ifs
            · rfl
            · exact isCached
          · intro other isThere
            rw [OrdMap.get?_insert]
            split_ifs
            · rfl
            · exact progressed.grown.kept other isThere
          · intro other isThere
            by_cases same : other = struct
            · exact .inr (same ▸ .refl)
            · rw [OrdMap.get?_insert_of_ne _ _ same] at isThere
              exact (progressed.grown.new other isThere).imp_right TransGen.to_reflTransGen

end Rayzor.CStructs
