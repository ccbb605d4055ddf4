import Rayzor.Views.Values

/-!
Contract: unboxing converts as the language does.
-/

namespace Rayzor.Views

open Library

variable (runtime : Runtime)

theorem stableClassTypeId_range (name : String) :
    0x10000000 ≤ stableClassTypeId name ∧ stableClassTypeId name < 0x20000000 := by
  unfold stableClassTypeId
  generalize (name.toUTF8.toList.foldl _ _ : BitVec 32) = hash
  constructor
  · rw [BitVec.toNat_or]
    exact Nat.left_le_or
  · rw [BitVec.toNat_or, BitVec.toNat_and]
    have masked : hash.toNat &&& (0x0fffffff#32).toNat < 2 ^ 29 :=
      Nat.lt_of_le_of_lt Nat.and_le_right (by decide)
    exact Nat.or_lt_two_pow (by decide) masked

theorem int64ClassId_user : 100 < int64ClassId ∧ int64ClassId < 2 ^ 32 - 11 := by
  have range := stableClassTypeId_range "haxe.___Int64"
  unfold int64ClassId
  omega

theorem isBoxTag_of_builtin {typeId : Nat} (positive : typeNull ≤ typeId)
    (builtin : typeId ≤ typeArray) : isBoxTag typeId = true := by
  simp [isBoxTag, positive, builtin]

theorem notClass {typeId : Nat} (boxTag : isBoxTag typeId = true) :
    runtime.isClassType typeId = false := by
  cases isClass : runtime.isClassType typeId with
  | false => rfl
  | true =>
      have separate := (runtime.classes typeId isClass).2
      rw [boxTag] at separate
      cases separate

theorem notEnum_of_small {id : Nat} (small : id ≤ 100) : runtime.enumInfo id = none := by
  cases info : runtime.enumInfo id with
  | none => rfl
  | some info' =>
      have big := (runtime.enums id (by rw [info]; rfl)).1
      omega

theorem notEnum_mark : runtime.enumInfo referenceBoxMark = none := by
  cases info : runtime.enumInfo referenceBoxMark with
  | none => rfl
  | some info' => exact absurd rfl (runtime.enums _ (by rw [info]; rfl)).2.2

def Boxed (typeId : Nat) (mark : Mark) : Prop :=
  mark = .none ∧ isBoxTag typeId = true ∨ mark = .reference

variable {runtime} {typeId : Nat} {mark : Mark} {valuePtr : Word}

theorem isRawClassInstance_box (boxed : Boxed typeId mark) :
    isRawClassInstance runtime.toMachine (.box typeId mark valuePtr) = .ok false := by
  cases boxed with
  | inl plain =>
      rw [plain.1]
      show Except.ok (_ && runtime.isClassType typeId) = _
      rw [notClass runtime plain.2, Bool.and_false]
  | inr marked => rw [marked]; rfl

theorem stampedEnumCellType_of_none {ptr : Word} {variant id : Nat}
    (header : headerAt runtime.toMachine ptr = .ok (some (variant, id)))
    (notEnum : runtime.enumInfo id = none) :
    stampedEnumCellType runtime.toMachine ptr = .ok none := by
  simp [stampedEnumCellType, header, notEnum, bind, Except.bind, pure, Except.pure]

theorem stampedEnumCellType_of_some {ptr : Word} {variant id : Nat} {info : EnumInfo}
    (header : headerAt runtime.toMachine ptr = .ok (some (variant, id)))
    (isEnum : runtime.enumInfo id = some info) :
    stampedEnumCellType runtime.toMachine ptr =
      .ok (if info.boxed && variant < 2 ^ 31 && variant < info.variants then some id else none) := by
  simp [stampedEnumCellType, header, isEnum, bind, Except.bind, pure, Except.pure]

theorem stampedEnumCellType_box (boxed : Boxed typeId mark) :
    stampedEnumCellType runtime.toMachine (.box typeId mark valuePtr) = .ok none := by
  have noEnum : runtime.enumInfo mark.padding = none := by
    cases boxed with
    | inl plain => rw [plain.1]; exact notEnum_of_small runtime (by decide)
    | inr marked => rw [marked]; exact notEnum_mark runtime
  exact stampedEnumCellType_of_none rfl noEnum

theorem isAnonHandle_box (boxed : Boxed typeId mark) :
    isAnonHandle runtime.toMachine (.box typeId mark valuePtr) = .ok false := by
  have differs : ((typeId, mark.padding) == anonHandleTag) = false := by
    cases boxed with
    | inl plain => rw [plain.1]; simp [anonHandleTag, Mark.padding]
    | inr marked => rw [marked]; simp [anonHandleTag, Mark.padding, referenceBoxMark]
  show Except.ok ((typeId, mark.padding) == anonHandleTag) = _
  rw [differs]

theorem isRawReference_box (boxed : Boxed typeId mark) :
    isRawReference runtime.toMachine (.box typeId mark valuePtr) = .ok false := by
  rw [isRawReference, isRawClassInstance_box boxed, stampedEnumCellType_box boxed]
  show isAnonHandle runtime.toMachine (.box typeId mark valuePtr) = _
  exact isAnonHandle_box boxed

theorem isReferenceBox_box :
    isReferenceBox runtime.toMachine (.box typeId mark valuePtr) =
      .ok (decide (mark = .reference)) := by
  cases mark <;> rfl

theorem haxeUnboxIntPtr_box (boxed : Boxed typeId mark) :
    haxeUnboxIntPtr runtime.toMachine (.box typeId mark valuePtr) =
      haxeUnboxInt runtime.toMachine ⟨typeId, valuePtr⟩ := by
  rw [haxeUnboxIntPtr, isRawClassInstance_box boxed]
  rfl

theorem haxeUnboxFloatPtr_box (boxed : Boxed typeId mark) :
    haxeUnboxFloatPtr runtime.toMachine (.box typeId mark valuePtr) =
      haxeUnboxFloat runtime.toMachine ⟨typeId, valuePtr⟩ := by
  have unerased : erasedBoxBits runtime.toMachine (.box typeId mark valuePtr) = .ok none := by
    have differs : ¬ (typeId = typeInt ∧ mark.padding = erasedBoxMark) := by
      cases boxed with
      | inl plain => rw [plain.1]; exact fun both => absurd both.2 (by decide)
      | inr marked => rw [marked]; exact fun both => absurd both.2 (by decide)
    exact if_neg differs
  rw [haxeUnboxFloatPtr, unerased]
  rfl

theorem haxeUnboxReferencePtr_box (boxed : Boxed typeId mark)
    (held : mark = .reference ∨ typeId = typeFunction ∨ typeNull ≤ typeId ∧ typeId ≤ typeArray) :
    haxeUnboxReferencePtr runtime.toMachine (.box typeId mark valuePtr) = .ok valuePtr := by
  have opens : (decide (mark = .reference) || typeId == typeFunction ||
      (typeId != 0 && DynamicValue.tagIsBuiltin ⟨typeId, valuePtr⟩)) = true := by
    rcases held with marked | function | builtin
    · simp [marked]
    · simp [function]
    · have positive : typeId ≠ 0 := by
        unfold typeNull at builtin
        omega
      simp [positive, DynamicValue.tagIsBuiltin, builtin.2]
  rw [haxeUnboxReferencePtr, isRawReference_box boxed]
  show (do
    if (← isReferenceBox runtime.toMachine (.box typeId mark valuePtr)) || _ || _ then _ else _ :
      Except Fault Word) = _
  rw [isReferenceBox_box]
  exact if_pos opens

theorem haxeUnboxInt_null :
    haxeUnboxInt runtime.toMachine ⟨typeNull, valuePtr⟩ = .ok .null := by
  have differs : typeNull ≠ int64ClassId := by
    have user := int64ClassId_user
    unfold typeNull
    omega
  exact if_neg differs

theorem haxeUnboxInt_float (bits : Bits) :
    haxeUnboxInt runtime.toMachine ⟨typeFloat, .float bits⟩ = .ok (.number (f64AsI64 bits)) := by
  have differs : typeFloat ≠ int64ClassId := by
    have user := int64ClassId_user
    unfold typeFloat
    omega
  exact if_neg differs

theorem haxeUnboxInt_bool (bool : Bool) :
    haxeUnboxInt runtime.toMachine ⟨typeBool, .bool bool⟩ =
      .ok (.number (if bool then 1 else 0)) := by
  have differs : typeBool ≠ int64ClassId := by
    have user := int64ClassId_user
    unfold typeBool
    omega
  exact if_neg differs

theorem haxeUnboxInt_int64 (high low : Bits) :
    haxeUnboxInt runtime.toMachine ⟨int64ClassId, .int64 high low⟩ =
      .ok (.number (joined high low)) := by
  have differs : int64ClassId ≠ typeInt := by
    have user := int64ClassId_user
    unfold typeInt
    omega
  exact (if_neg differs).trans (if_pos rfl)

theorem haxeUnboxFloat_int (bits : Bits) :
    haxeUnboxFloat runtime.toMachine ⟨typeInt, .int bits⟩ = .ok (i64AsF64 bits) :=
  (if_neg (show ¬ typeInt = typeFloat by decide)).trans (if_pos rfl)

/-- Both readers of an Int take a null for zero and a box for what it holds. -/
structure OpensInt (runtime : Runtime) (opens : Word → Except Fault Word) : Prop where
  null : opens .null = .ok .null
  box : ∀ typeId valuePtr, typeNull ≤ typeId → typeId ≤ typeString →
    opens (.box typeId .none valuePtr) = haxeUnboxInt runtime.toMachine ⟨typeId, valuePtr⟩

theorem boxed_builtin (positive : typeNull ≤ typeId) (builtin : typeId ≤ typeString) :
    Boxed typeId .none := by
  have isBuiltin : typeId ≤ typeArray := by
    unfold typeArray
    unfold typeString at builtin
    omega
  exact Or.inl ⟨rfl, isBoxTag_of_builtin positive isBuiltin⟩

theorem haxeUnboxIntPtr_opensInt : OpensInt runtime (haxeUnboxIntPtr runtime.toMachine) where
  null := rfl
  box _ _ positive builtin := haxeUnboxIntPtr_box (boxed_builtin positive builtin)

theorem haxeCoerceDynamicToInt_opensInt :
    OpensInt runtime (haxeCoerceDynamicToInt runtime.toMachine) where
  null := rfl
  box typeId valuePtr _ builtin := by
    have coercible : DynamicValue.tagIsCoercible ⟨typeId, valuePtr⟩ = true := by
      simp [DynamicValue.tagIsCoercible, builtin]
    have read : dynamicBoxAt runtime.toMachine (.box typeId .none valuePtr) =
        .ok (some ⟨typeId, valuePtr⟩) := rfl
    have notNull : (Word.box typeId .none valuePtr).isNull = false := rfl
    simp [haxeCoerceDynamicToInt, read, notNull, Option.filter_some, coercible, bind, Except.bind]

variable {word : Word} {value result : Value}

theorem OpensInt.of_carries {opens : Word → Except Fault Word} (opensInt : OpensInt runtime opens)
    (carries : Carries runtime word value) (converts : value.convert .int = some result) :
    ∃ int, result = .int int ∧ opens word = .ok (.number (int.signExtend 64)) := by
  cases carries with
  | null => exact ⟨0, (Option.some.inj converts).symm, opensInt.null⟩
  | nullBox =>
      refine ⟨0, (Option.some.inj converts).symm, ?_⟩
      rw [opensInt.box _ _ (by decide) (by decide), haxeUnboxInt_null]
      rfl
  | int int =>
      refine ⟨int, (Option.some.inj converts).symm, ?_⟩
      rw [opensInt.box _ _ (by decide) (by decide)]
      rfl
  | float bits =>
      obtain ⟨int, truncated, isInt⟩ := Option.map_eq_some_iff.mp converts
      refine ⟨int, isInt.symm, ?_⟩
      rw [opensInt.box _ _ (by decide) (by decide), haxeUnboxInt_float,
        f64AsI64_truncated truncated]
  | _ => cases converts

theorem haxeUnboxFloatPtr_of_carries (carries : Carries runtime word value)
    (converts : value.convert .float = some result) :
    ∃ bits, result = .float bits ∧ haxeUnboxFloatPtr runtime.toMachine word = .ok bits := by
  cases carries with
  | null => exact ⟨0, (Option.some.inj converts).symm, rfl⟩
  | nullBox =>
      refine ⟨0, (Option.some.inj converts).symm, ?_⟩
      rw [haxeUnboxFloatPtr_box (boxed_builtin (by decide) (by decide))]
      rfl
  | int int =>
      refine ⟨_, (Option.some.inj converts).symm, ?_⟩
      rw [haxeUnboxFloatPtr_box (boxed_builtin (by decide) (by decide)), haxeUnboxFloat_int,
        i64AsF64_signExtend]
  | float bits =>
      refine ⟨bits, (Option.some.inj converts).symm, ?_⟩
      rw [haxeUnboxFloatPtr_box (boxed_builtin (by decide) (by decide))]
      rfl
  | _ => cases converts

theorem haxeUnboxBoolPtr_of_carries (carries : Carries runtime word value)
    (converts : value.convert .bool = some result) :
    ∃ bool, result = .bool bool ∧ haxeUnboxBoolPtr runtime.toMachine word = .ok bool := by
  cases carries with
  | null => exact ⟨false, (Option.some.inj converts).symm, rfl⟩
  | nullBox => exact ⟨false, (Option.some.inj converts).symm, rfl⟩
  | bool bool => exact ⟨bool, (Option.some.inj converts).symm, rfl⟩
  | _ => cases converts

theorem haxeUnboxIntPtr_of_carries_int64 (carries : Carries runtime word value)
    (converts : value.convert .int64 = some result) :
    ∃ bits, result = .int64 bits ∧
      haxeUnboxIntPtr runtime.toMachine word = .ok (.number bits) := by
  cases carries with
  | null => exact ⟨0, (Option.some.inj converts).symm, rfl⟩
  | nullBox =>
      refine ⟨0, (Option.some.inj converts).symm, ?_⟩
      rw [haxeUnboxIntPtr_box (boxed_builtin (by decide) (by decide)), haxeUnboxInt_null]
      rfl
  | int int =>
      refine ⟨_, (Option.some.inj converts).symm, ?_⟩
      rw [haxeUnboxIntPtr_box (boxed_builtin (by decide) (by decide))]
      rfl
  | rawInt64 high low =>
      refine ⟨_, (Option.some.inj converts).symm, ?_⟩
      have isInstance :
          isRawClassInstance runtime.toMachine (.int64 high low) = .ok true := by
        show Except.ok (_ && runtime.isClassType int64ClassId) = _
        rw [runtime.int64Class]
        rfl
      have isInt64 : header runtime.toMachine (.int64 high low) = .ok (int64ClassId, 0) := rfl
      rw [haxeUnboxIntPtr, isInstance, isInt64]
      show (if true && int64ClassId == int64ClassId then _ else _ : Except Fault Word) = _
      rw [beq_self_eq_true]
      rfl
  | int64 high low =>
      refine ⟨_, (Option.some.inj converts).symm, ?_⟩
      rw [haxeUnboxIntPtr_box (Or.inr rfl), haxeUnboxInt_int64]
  | _ => cases converts

theorem haxeDynamicIsNull_box (builtin : typeId ≤ typeString) :
    haxeDynamicIsNull runtime.toMachine (.box typeId mark valuePtr) =
      .ok (typeId == typeNull || valuePtr.isNull) := by
  have known : DynamicValue.tagIsKnown ⟨typeId, valuePtr⟩ = true := by
    have isBuiltin : typeId ≤ typeArray := Nat.le_trans builtin (by decide)
    simp [DynamicValue.tagIsKnown, DynamicValue.tagIsBuiltin, isBuiltin]
  have read : dynamicValueIfBoxed runtime.toMachine (.box typeId mark valuePtr) =
      .ok (some ⟨typeId, valuePtr⟩) := by
    show Except.ok (Option.filter DynamicValue.tagIsKnown (some ⟨typeId, valuePtr⟩)) = _
    rw [Option.filter_some, if_pos known]
  have notNull : (Word.box typeId mark valuePtr).isNull = false := rfl
  simp [haxeDynamicIsNull, read, notNull, bind, Except.bind, pure, Except.pure]

theorem haxeNullIntFromDynamic_box {bits : Bits} (positive : typeNull < typeId)
    (builtin : typeId ≤ typeString) (held : valuePtr.isNull = false)
    (unboxes : haxeUnboxInt runtime.toMachine ⟨typeId, valuePtr⟩ = .ok (.number bits)) :
    haxeNullIntFromDynamic runtime.toMachine (.box typeId mark valuePtr) =
      .ok (.number (low32 bits)) := by
  have notNull : (typeId == typeNull || valuePtr.isNull) = false := by
    rw [held, Bool.or_false]
    exact beq_false_of_ne (Nat.ne_of_gt positive)
  have known : DynamicValue.tagIsKnown ⟨typeId, valuePtr⟩ = true := by
    have isBuiltin : typeId ≤ typeArray := Nat.le_trans builtin (by decide)
    simp [DynamicValue.tagIsKnown, DynamicValue.tagIsBuiltin, isBuiltin]
  have isBox : dynamicValueIfBoxed runtime.toMachine (.box typeId mark valuePtr) =
      .ok (some ⟨typeId, valuePtr⟩) := by
    show Except.ok (Option.filter DynamicValue.tagIsKnown (some ⟨typeId, valuePtr⟩)) = _
    rw [Option.filter_some, if_pos known]
  rw [haxeNullIntFromDynamic, if_neg (by simp), haxeDynamicIsNull_box builtin,
    notNull, isBox]
  show (do pure (Word.number (low32 (← (← haxeUnboxInt runtime.toMachine _).bits))) :
    Except Fault Word) = _
  rw [unboxes]
  rfl

theorem haxeNullIntFromDynamic_of_carries (carries : Carries runtime word value)
    (converts : value.convert .nullInt = some result) :
    ∃ read, haxeNullIntFromDynamic runtime.toMachine word = .ok read ∧
      nullIntValue read = some result := by
  cases carries with
  | null => exact ⟨.number nullInt, rfl, converts⟩
  | nullBox => exact ⟨.number nullInt, rfl, converts⟩
  | int int =>
      refine ⟨_, haxeNullIntFromDynamic_box (by decide) (by decide) rfl rfl, ?_⟩
      rw [low32_signExtend, nullIntValue_signExtend]
      exact converts
  | float bits =>
      obtain ⟨int, truncated, isInt⟩ := Option.map_eq_some_iff.mp converts
      refine ⟨_, haxeNullIntFromDynamic_box (by decide) (by decide) rfl (haxeUnboxInt_float bits), ?_⟩
      rw [f64AsI64_truncated truncated, low32_signExtend, nullIntValue_signExtend, isInt]
  | _ => cases converts

theorem isRawReference_of_boxTag {object : Object}
    (boxTag : isBoxTag (runtime.typeId object) = true) :
    isRawReference runtime.toMachine (.object object) = .ok true := by
  obtain ⟨cellType, stamped⟩ := runtime.stamped object boxTag
  have notInstance : isRawClassInstance runtime.toMachine (.object object) = .ok false := by
    show Except.ok (_ && runtime.isClassType (runtime.typeId object)) = _
    rw [notClass runtime boxTag, Bool.and_false]
  rw [isRawReference, notInstance, stamped]
  rfl

theorem isReferenceBox_object (object : Object) :
    isReferenceBox runtime.toMachine (.object object) = .ok false := by
  show Except.ok (runtime.padding object == referenceBoxMark) = _
  rw [beq_false_of_ne (runtime.unmarked object)]

theorem isRawReference_object (object : Object) :
    ∃ isRaw, isRawReference runtime.toMachine (.object object) = .ok isRaw := by
  have isStamped : ∃ cellType,
      stampedEnumCellType runtime.toMachine (.object object) = .ok cellType := by
    cases isEnum : runtime.enumInfo (runtime.padding object) with
    | none => exact ⟨_, stampedEnumCellType_of_none rfl isEnum⟩
    | some info => exact ⟨_, stampedEnumCellType_of_some rfl isEnum⟩
  obtain ⟨cellType, stamped⟩ := isStamped
  have isInstance : isRawClassInstance runtime.toMachine (.object object) =
    .ok (runtime.padding object == 0 && runtime.isClassType (runtime.typeId object)) := rfl
  rw [isRawReference, isInstance, stamped]
  cases runtime.padding object == 0 && runtime.isClassType (runtime.typeId object) with
  | true => exact ⟨true, rfl⟩
  | false =>
      cases cellType with
      | some cellType => exact ⟨true, rfl⟩
      | none => exact ⟨_, rfl⟩

theorem haxeUnboxReferencePtr_object (object : Object) :
    haxeUnboxReferencePtr runtime.toMachine (.object object) = .ok (.object object) := by
  obtain ⟨isRaw, decides⟩ := @isRawReference_object runtime object
  cases isRaw with
  | true => rw [haxeUnboxReferencePtr, decides]; rfl
  | false =>
      have notTag : isBoxTag (runtime.typeId object) = false := by
        cases boxTag : isBoxTag (runtime.typeId object) with
        | false => rfl
        | true =>
            rw [isRawReference_of_boxTag boxTag] at decides
            cases decides
      have stays : (false || runtime.typeId object == typeFunction ||
          (runtime.typeId object != 0 &&
            DynamicValue.tagIsBuiltin ⟨runtime.typeId object, runtime.second object⟩)) =
          false := by
        simp only [isBoxTag, typeNull, Bool.or_eq_false_iff, Bool.and_eq_false_iff] at notTag
        simp only [DynamicValue.tagIsBuiltin, Bool.or_eq_false_iff, Bool.and_eq_false_iff]
        grind
      rw [haxeUnboxReferencePtr, decides]
      show (do
        if (← isReferenceBox runtime.toMachine (.object object)) || _ || _ then _ else _ :
          Except Fault Word) = _
      rw [isReferenceBox_object]
      exact if_neg (Bool.eq_false_iff.mp stays)

theorem haxeUnboxReferencePtr_of_carries (carries : Carries runtime word value)
    (converts : value.convert .reference = some result) :
    ∃ read, haxeUnboxReferencePtr runtime.toMachine word = .ok read ∧
      referenceValue runtime read = some result := by
  cases carries with
  | null => exact ⟨.null, rfl, converts⟩
  | nullBox =>
      refine ⟨.null, ?_, converts⟩
      exact haxeUnboxReferencePtr_box (boxed_builtin (by decide) (by decide))
        (Or.inr (Or.inr (by decide)))
  | rawReference object => exact ⟨_, haxeUnboxReferencePtr_object object, converts⟩
  | plainReference typeId object plain =>
      refine ⟨.object object, ?_, converts⟩
      cases plain with
      | inl isString =>
          rw [isString]
          exact haxeUnboxReferencePtr_box (boxed_builtin (by decide) (by decide))
            (Or.inr (Or.inr (by decide)))
      | inr isFunction =>
          rw [isFunction]
          exact haxeUnboxReferencePtr_box (Or.inl ⟨rfl, by decide⟩) (Or.inr (Or.inl rfl))
  | reference typeId object isReference =>
      exact ⟨.object object, haxeUnboxReferencePtr_box (Or.inr rfl) (Or.inl rfl), converts⟩
  | _ => cases converts

theorem haxeUnboxErasedReturn_plain (boxTag : isBoxTag typeId = true) :
    haxeUnboxErasedReturn runtime.toMachine (.box typeId .none valuePtr) =
      unboxByType runtime.toMachine (.box typeId .none valuePtr) ⟨typeId, valuePtr⟩ := by
  rw [haxeUnboxErasedReturn, stampedEnumCellType_box (Or.inl ⟨rfl, boxTag⟩)]
  rfl

theorem haxeUnboxErasedReturn_marked :
    haxeUnboxErasedReturn runtime.toMachine (.box typeId .reference valuePtr) =
      (do
        let integer ← boxedIntegerValue runtime.toMachine ⟨typeId, valuePtr⟩
        pure ((integer.map Word.number).getD valuePtr)) := by
  rw [haxeUnboxErasedReturn, stampedEnumCellType_box (Or.inr rfl)]
  rfl

theorem stampedEnumCellType_object (object : Object) :
    ∃ cellType, stampedEnumCellType runtime.toMachine (.object object) = .ok cellType ∧
      ∀ id, cellType = some id → (runtime.enumInfo id).isSome := by
  cases isEnum : runtime.enumInfo (runtime.padding object) with
  | none => exact ⟨none, stampedEnumCellType_of_none rfl isEnum, fun id found => by cases found⟩
  | some info =>
      refine ⟨_, stampedEnumCellType_of_some rfl isEnum, ?_⟩
      intro id found
      split at found
      · cases found
        rw [isEnum]
        rfl
      · cases found

theorem haxeUnboxErasedReturn_object (object : Object) :
    haxeUnboxErasedReturn runtime.toMachine (.object object) = .ok (.object object) := by
  obtain ⟨cellType, stamped, -⟩ := @stampedEnumCellType_object runtime object
  rw [haxeUnboxErasedReturn, stamped]
  cases cellType with
  | some id => rfl
  | none =>
      have notTag : isBoxTag (runtime.typeId object) = false := by
        cases boxTag : isBoxTag (runtime.typeId object) with
        | false => rfl
        | true =>
            obtain ⟨id, isStamped⟩ := runtime.stamped object boxTag
            rw [stamped] at isStamped
            cases isStamped
      have untyped : unboxByType runtime.toMachine (.object object)
          ⟨runtime.typeId object, runtime.second object⟩ = .ok (.object object) := by
        have apart : ∀ typeId, isBoxTag typeId = true → runtime.typeId object ≠ typeId := by
          intro typeId boxTag same
          rw [same, boxTag] at notTag
          cases notTag
        have notInt := apart typeInt (by decide)
        have notBool := apart typeBool (by decide)
        have notFloat := apart typeFloat (by decide)
        have notNull := apart typeNull (by decide)
        have notString := apart typeString (by decide)
        have notFunction := apart typeFunction (by decide)
        simp [unboxByType, notInt, notBool, notFloat, notNull, notString, notFunction]
        rfl
      show (do
        let isBox ← isReferenceBox runtime.toMachine (.object object)
        if isBox then _ else (unboxByType runtime.toMachine (.object object)
          ⟨runtime.typeId object, runtime.second object⟩) : Except Fault Word) = _
      rw [isReferenceBox_object]
      exact untyped

theorem boxedIntegerValue_reference {object : Object} (isReference : ReferenceType typeId) :
    boxedIntegerValue runtime.toMachine ⟨typeId, .object object⟩ = .ok none :=
  (if_neg isReference.1).trans (if_neg isReference.2)

theorem haxeUnboxErasedReturn_of_carries (carries : Carries runtime word value) :
    ∃ read, haxeUnboxErasedReturn runtime.toMachine word = .ok read ∧ Bare runtime read value := by
  cases carries with
  | null => exact ⟨.null, rfl, Or.inl rfl⟩
  | nullBox =>
      exact ⟨_, haxeUnboxErasedReturn_plain (show isBoxTag typeNull = true by decide), Or.inl rfl⟩
  | int int =>
      exact ⟨_, haxeUnboxErasedReturn_plain (show isBoxTag typeInt = true by decide), rfl⟩
  | bool bool =>
      refine ⟨_, ?_, rfl⟩
      exact (haxeUnboxErasedReturn_plain (show isBoxTag typeBool = true by decide)).trans
        (haxeUnboxInt_bool bool)
  | float bits =>
      exact ⟨_, haxeUnboxErasedReturn_plain (show isBoxTag typeFloat = true by decide), rfl⟩
  | rawInt64 high low =>
      refine ⟨.int64 high low, ?_, Or.inr ⟨high, low, rfl, rfl⟩⟩
      have unstamped :
          stampedEnumCellType runtime.toMachine (.int64 high low) = .ok none :=
        stampedEnumCellType_of_none rfl (notEnum_of_small runtime (by decide))
      have apart : ∀ typeId, typeId ≤ 100 ∨ 2 ^ 32 - 11 ≤ typeId → int64ClassId ≠ typeId := by
        have user := int64ClassId_user
        omega
      have notInt := apart typeInt (by decide)
      have notBool := apart typeBool (by decide)
      have notFloat := apart typeFloat (by decide)
      have notNull := apart typeNull (by decide)
      have notString := apart typeString (by decide)
      have notFunction := apart typeFunction (by decide)
      rw [haxeUnboxErasedReturn, unstamped]
      show unboxByType runtime.toMachine (.int64 high low) ⟨int64ClassId, .number high⟩ = _
      simp [unboxByType, notInt, notBool, notFloat, notNull, notString, notFunction]
      rfl
  | int64 high low =>
      refine ⟨_, ?_, Or.inl rfl⟩
      have held : boxedIntegerValue runtime.toMachine ⟨int64ClassId, .int64 high low⟩ =
          .ok (some (joined high low)) := by
        have differs : int64ClassId ≠ typeInt := by
          have user := int64ClassId_user
          unfold typeInt
          omega
        exact (if_neg differs).trans (if_pos rfl)
      rw [haxeUnboxErasedReturn_marked, held]
      rfl
  | rawReference object => exact ⟨_, haxeUnboxErasedReturn_object object, object, rfl, rfl⟩
  | plainReference typeId object plain =>
      refine ⟨.object object, ?_, object, rfl, rfl⟩
      cases plain with
      | inl isString => rw [isString]; exact haxeUnboxErasedReturn_plain (by decide)
      | inr isFunction => rw [isFunction]; exact haxeUnboxErasedReturn_plain (by decide)
  | reference typeId object isReference =>
      refine ⟨.object object, ?_, object, rfl, rfl⟩
      rw [haxeUnboxErasedReturn_marked, boxedIntegerValue_reference isReference]
      rfl

end Rayzor.Views
