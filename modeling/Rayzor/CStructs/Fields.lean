import Rayzor.CStructs.Definitions

/-!
Contract: what one field adds to a layout.
-/

namespace Rayzor.CStructs

open Library Ir Relation

theorem and_not_mask {number : Nat} (below : number < 2 ^ 32) {bits : Nat} (few : bits ≤ 32) :
    number &&& (2 ^ 32 - 2 ^ bits) = number / 2 ^ bits * 2 ^ bits := by
  have positive : 0 < 2 ^ bits := Nat.two_pow_pos bits
  have inside : 2 ^ bits - 1 < 2 ^ 32 :=
    (Nat.sub_lt positive Nat.one_pos).trans_le (Nat.pow_le_pow_right (by decide) few)
  rw [← Nat.shiftRight_eq_div_pow, ← Nat.shiftLeft_eq]
  apply Nat.eq_of_testBit_eq
  intro place
  have mask : (2 ^ 32 - 2 ^ bits).testBit place = (decide (place < 32) && !decide (place < bits)) := by
    have shifted := Nat.testBit_two_pow_sub_succ inside place
    rw [Nat.sub_add_cancel positive, Nat.testBit_two_pow_sub_one] at shifted
    exact shifted
  rw [Nat.testBit_and, mask, Nat.testBit_shiftLeft, Nat.testBit_shiftRight]
  by_cases low : place < bits
  · simp [low]
  · have high : bits ≤ place := Nat.not_lt.mp low
    rw [Nat.add_sub_cancel' high]
    by_cases inWord : place < 32
    · simp [low, high, inWord]
    · have noBit : number.testBit place = false :=
        Nat.testBit_lt_two_pow (below.trans_le (Nat.pow_le_pow_right (by decide)
          (Nat.not_lt.mp inWord)))
      simp [noBit]

/-- As long as nothing is carried out, machine arithmetic follows the rule. -/
theorem alignTo_toNat {byteOffset align : UInt32}
    (aligned : align.toNat = 1 ∨ align.toNat = 4 ∨ align.toNat = 8)
    (small : roundUp byteOffset.toNat align.toNat < 2 ^ 32) :
    (alignTo byteOffset align).toNat = roundUp byteOffset.toNat align.toNat := by
  have inWord := byteOffset.toNat_lt
  unfold roundUp at small
  have byMask : ∀ bits, bits ≤ 3 → align.toNat = 2 ^ bits →
      byteOffset.toNat + align.toNat - 1 < 2 ^ 32 → (~~~(align - 1)).toNat = 2 ^ 32 - 2 ^ bits →
      (alignTo byteOffset align).toNat = roundUp byteOffset.toNat align.toNat := by
    intro bits few isPower noCarry mask
    have sum : (byteOffset + align - 1).toNat = byteOffset.toNat + align.toNat - 1 := by
      rw [UInt32.toNat_sub, UInt32.toNat_add]
      have positive : 0 < align.toNat := isPower ▸ Nat.two_pow_pos bits
      have one : UInt32.toNat 1 = 1 := rfl
      rw [one]
      omega
    rw [alignTo, UInt32.toNat_and, sum, mask, and_not_mask noCarry (few.trans (by decide)), roundUp,
      isPower]
  obtain isOne | isFour | isEight := aligned
  · have same : align = 1 := UInt32.toNat_inj.mp isOne
    have noCarry : byteOffset.toNat + align.toNat - 1 < 2 ^ 32 := by rw [isOne] at small ⊢; omega
    exact byMask 0 (by decide) isOne noCarry (by rw [same]; decide)
  · have same : align = 4 := UInt32.toNat_inj.mp isFour
    have noCarry : byteOffset.toNat + align.toNat - 1 < 2 ^ 32 := by rw [isFour] at small ⊢; omega
    exact byMask 2 (by decide) isFour noCarry (by rw [same]; decide)
  · have same : align = 8 := UInt32.toNat_inj.mp isEight
    have noCarry : byteOffset.toNat + align.toNat - 1 < 2 ^ 32 := by rw [isEight] at small ⊢; omega
    exact byMask 3 (by decide) isEight noCarry (by rw [same]; decide)

namespace HirToMirContext

variable {context : HirToMirContext}

theorem cstructPtrCType_eq (layouts : Layouts) (target : TypeId) (depCdefs : List Text) :
    context.cstructPtrCType layouts target depCdefs =
      ⟨context.targetName (some target) ++ ['*'],
        if context.IsCstruct target then
          ((layouts.get? target).map (pushLayout depCdefs)).getD depCdefs
        else depCdefs⟩ := by
  by_cases isCstruct : context.IsCstruct target
  · rw [if_pos isCstruct]
    unfold IsCstruct cstructSymbol at isCstruct
    unfold cstructPtrCType targetName cstructSymbol
    split at isCstruct
    · next symbolId isClass =>
        have isFlagged : (context.symbol symbolId).isCstruct = true := by
          by_contra notFlagged
          rw [if_neg notFlagged] at isCstruct
          exact absurd isCstruct (by decide)
        simp only [Option.bind_some, isClass, isFlagged, if_true, Option.map_some, Option.getD_some]
        cases layouts.get? target <;> rfl
    · exact absurd isCstruct (by decide)
  · rw [if_neg isCstruct]
    have unknown : context.cstructSymbol target = none :=
      Option.not_isSome_iff_eq_none.mp isCstruct
    unfold cstructPtrCType targetName
    rw [Option.bind_some, unknown]
    unfold cstructSymbol at unknown
    split
    · next symbolId isClass =>
        rw [isClass] at unknown
        have notFlagged : ¬(context.symbol symbolId).isCstruct = true := by
          intro isFlagged
          simp [isFlagged] at unknown
        rw [if_neg notFlagged]
        rfl
    · rfl

variable (context) in
/-- The definitions behind a pointer: those of a target that is laid out already. -/
def pointerCdefs (layouts : Layouts) (depCdefs : List Text) : Option TypeId → List Text
  | none => depCdefs
  | some target =>
      if context.IsCstruct target then
        ((layouts.get? target).map (pushLayout depCdefs)).getD depCdefs
      else depCdefs

theorem resolvePointer_eq (layouts : Layouts) (typeArgs : List TypeId) (depCdefs : List Text) :
    context.resolvePointer layouts typeArgs depCdefs =
      ⟨8, 8, (CType.pointer false (context.targetName typeArgs.head?)).text, .i64,
        context.pointerCdefs layouts depCdefs typeArgs.head?, layouts⟩ := by
  unfold resolvePointer
  cases typeArgs.head? with
  | none => rfl
  | some target => simp only [cstructPtrCType_eq, CType.text]; rfl

theorem resolveRef_eq (layouts : Layouts) (typeArgs : List TypeId) (depCdefs : List Text) :
    context.resolveRef layouts typeArgs depCdefs =
      ⟨8, 8, (CType.pointer true (context.targetName typeArgs.head?)).text, .i64,
        context.pointerCdefs layouts depCdefs typeArgs.head?, layouts⟩ := by
  unfold resolveRef
  cases typeArgs.head? with
  | none => rfl
  | some target =>
      simp only [cstructPtrCType_eq, CType.text, List.getLast?_append, List.getLast?_singleton,
        Option.some_or, if_true]
      rw [← List.append_assoc]
      rfl

variable {compute : Computation} {layouts : Layouts} {typeId : TypeId} {irType : IrType}
  {depCdefs : List Text}

theorem resolve_pointer {isConst : Bool} {target : Option TypeId}
    (isKind : context.fieldKind typeId = .pointer isConst target) :
    context.resolveCstructFieldType compute layouts typeId irType depCdefs =
      some ⟨8, 8, (context.cTypeOf typeId).text, .i64,
        context.pointerCdefs layouts depCdefs target, layouts⟩ := by
  rw [cTypeOf, isKind]
  unfold fieldKind at isKind
  unfold resolveCstructFieldType
  cases isType : context.typeTable.get? typeId with
  | none => rw [isType] at isKind; cases isKind
  | some kind =>
      rw [isType] at isKind
      cases kind with
      | abstract symbolId typeArgs =>
          dsimp only at isKind ⊢
          split_ifs at isKind ⊢
          · cases isKind
            rw [resolvePointer_eq]
          · cases isKind
            rw [resolveRef_eq]
          · cases isKind
            rw [resolvePointer_eq]
      | classType symbolId =>
          dsimp only at isKind ⊢
          split_ifs at isKind
      | declared symbolId => cases isKind
      | other => cases isKind

theorem resolve_sizeT (isKind : context.fieldKind typeId = .sizeT) :
    context.resolveCstructFieldType compute layouts typeId irType depCdefs =
      some ⟨8, 8, (context.cTypeOf typeId).text, .i64, depCdefs, layouts⟩ := by
  rw [cTypeOf, isKind]
  unfold fieldKind at isKind
  unfold resolveCstructFieldType
  cases isType : context.typeTable.get? typeId with
  | none => rw [isType] at isKind; cases isKind
  | some kind =>
      rw [isType] at isKind
      cases kind with
      | abstract symbolId typeArgs =>
          dsimp only at isKind ⊢
          split_ifs at isKind ⊢
          rfl
      | classType symbolId =>
          dsimp only at isKind ⊢
          split_ifs at isKind
      | declared symbolId => cases isKind
      | other => cases isKind

theorem resolve_charPointer (isKind : context.fieldKind typeId = .charPointer) :
    context.resolveCstructFieldType compute layouts typeId irType depCdefs =
      some ⟨8, 8, (context.cTypeOf typeId).text, .i64, depCdefs, layouts⟩ := by
  rw [cTypeOf, isKind]
  unfold fieldKind at isKind
  unfold resolveCstructFieldType
  cases isType : context.typeTable.get? typeId with
  | none => rw [isType] at isKind; cases isKind
  | some kind =>
      rw [isType] at isKind
      cases kind with
      | abstract symbolId typeArgs =>
          dsimp only at isKind ⊢
          split_ifs at isKind ⊢
          rfl
      | classType symbolId =>
          dsimp only at isKind ⊢
          split_ifs at isKind ⊢
          rfl
      | declared symbolId => cases isKind
      | other => cases isKind

theorem resolve_primitive (isKind : context.fieldKind typeId = .primitive) :
    context.resolveCstructFieldType compute layouts typeId irType depCdefs =
      some (resolvePrimitive layouts irType depCdefs) := by
  unfold fieldKind at isKind
  unfold resolveCstructFieldType
  cases isType : context.typeTable.get? typeId with
  | none => rfl
  | some kind =>
      rw [isType] at isKind
      cases kind with
      | abstract symbolId typeArgs =>
          dsimp only at isKind ⊢
          split_ifs at isKind ⊢
          rfl
      | classType symbolId =>
          dsimp only at isKind ⊢
          split_ifs at isKind ⊢
          rfl
      | declared symbolId => rfl
      | other => rfl

theorem resolve_nested (isKind : context.fieldKind typeId = .nested) {nested : CStructLayout}
    {layouts' : Layouts} (computed : compute layouts typeId = some (some nested, layouts')) :
    context.resolveCstructFieldType compute layouts typeId irType depCdefs =
      some ⟨nested.totalSize, nested.alignment, nested.cName, .i64,
        if depCdefs.contains nested.cdefString then depCdefs else pushLayout depCdefs nested,
        layouts'⟩ := by
  unfold fieldKind at isKind
  unfold resolveCstructFieldType
  cases isType : context.typeTable.get? typeId with
  | none => rw [isType] at isKind; cases isKind
  | some kind =>
      rw [isType] at isKind
      cases kind with
      | abstract symbolId typeArgs =>
          dsimp only at isKind ⊢
          split_ifs at isKind
      | classType symbolId =>
          dsimp only at isKind ⊢
          split_ifs at isKind with isText isCstruct
          rw [if_neg isText, if_pos isCstruct, computed]
          rfl
      | declared symbolId => cases isKind
      | other => cases isKind

theorem resolve_isSome_iff_of_nested (isKind : context.fieldKind typeId = .nested) :
    (context.resolveCstructFieldType compute layouts typeId irType depCdefs).isSome =
      (compute layouts typeId).isSome := by
  unfold fieldKind at isKind
  unfold resolveCstructFieldType
  cases isType : context.typeTable.get? typeId with
  | none => rw [isType] at isKind; cases isKind
  | some kind =>
      rw [isType] at isKind
      cases kind with
      | abstract symbolId typeArgs =>
          dsimp only at isKind ⊢
          split_ifs at isKind
      | classType symbolId =>
          dsimp only at isKind ⊢
          split_ifs at isKind ⊢
          rw [Option.isSome_map]
      | declared symbolId => cases isKind
      | other => cases isKind

end HirToMirContext

end Rayzor.CStructs
