import Rayzor.Views.Conversions

/-!
Contract: boxing keeps a value.
-/

namespace Rayzor.Views

variable {runtime : Runtime} {word : Word} {value : Value}

theorem referenceType_of_builtin {typeId : Nat} (small : typeId ≤ 100) (notInt : typeId ≠ typeInt) :
    ReferenceType typeId := by
  have user := int64ClassId_user
  exact ⟨notInt, by omega⟩

theorem referenceType_of_enum {typeId : Nat} (isEnum : (runtime.enumInfo typeId).isSome) :
    ReferenceType typeId := by
  have laws := runtime.enums typeId isEnum
  refine ⟨?_, laws.2.1⟩
  unfold typeInt
  omega

def BoxesObject (runtime : Runtime) (object : Object) (boxed : Except Fault Word) : Prop :=
  ∃ box, boxed = .ok box ∧ Carries runtime box (.reference (runtime.identity object))

theorem haxeBoxReferencePtr_object {typeId : Nat} (object : Object)
    (isReference : ReferenceType typeId) :
    BoxesObject runtime object (pure (haxeBoxReferencePtr (.object object) typeId)) :=
  ⟨_, rfl, .reference typeId object isReference⟩

theorem enumCellType_object (object : Object) :
    ∃ cellType, enumCellType runtime.toMachine (.object object) = .ok cellType ∧
      ∀ id, cellType = some id → ReferenceType id := by
  obtain ⟨cellType, stamped, isEnum⟩ := @stampedEnumCellType_object runtime object
  refine ⟨cellType.or (runtime.registeredCell object), ?_, ?_⟩
  · rw [enumCellType, stamped]
    rfl
  · intro id found
    cases cellType with
    | some stampedId =>
        have same : stampedId = id := Option.some.inj found
        exact referenceType_of_enum (isEnum id (congrArg some same))
    | none => exact referenceType_of_enum (runtime.registered object id found)

theorem isAnonHandle_object (object : Object) :
    ∃ isAnon, isAnonHandle runtime.toMachine (.object object) = .ok isAnon := ⟨_, rfl⟩

theorem isAlreadyBox_object (object : Object) :
    ∃ already, isAlreadyBox runtime.toMachine (.object object) = .ok already := by
  rw [isAlreadyBox, isReferenceBox_object]
  exact ⟨_, rfl⟩

theorem boxReferenceTag_object (object : Object) :
    BoxesObject runtime object (boxReferenceTag runtime.toMachine (.object object)) := by
  obtain ⟨cellType, isCell, isReference⟩ := @enumCellType_object runtime object
  rw [boxReferenceTag, isCell]
  cases cellType with
  | some id => exact haxeBoxReferencePtr_object object (isReference id rfl)
  | none =>
      show BoxesObject runtime object (do
        let isAnon ← isAnonHandle runtime.toMachine (.object object)
        if isAnon then _ else _)
      obtain ⟨isAnon, decidesAnon⟩ := @isAnonHandle_object runtime object
      rw [decidesAnon]
      cases isAnon with
      | true =>
          exact haxeBoxReferencePtr_object object (referenceType_of_builtin (by decide) (by decide))
      | false =>
          show BoxesObject runtime object (do
            let already ← isAlreadyBox runtime.toMachine (.object object)
            if already then _ else _)
          obtain ⟨already, decidesAlready⟩ := @isAlreadyBox_object runtime object
          rw [decidesAlready]
          cases already with
          | true => exact ⟨_, rfl, .rawReference object⟩
          | false =>
              apply haxeBoxReferencePtr_object
              split
              · rename_i isClass
                refine ⟨?_, runtime.noInt64 object⟩
                have user := (runtime.classes _ isClass).1
                unfold typeInt
                omega
              · exact referenceType_of_builtin (by decide) (by decide)

theorem haxeBoxClassInstance_object {object : Object}
    (isInstance : isRawClassInstance runtime.toMachine (.object object) = .ok true) :
    BoxesObject runtime object (haxeBoxClassInstance runtime.toMachine (.object object)) := by
  have isClass : (runtime.padding object == 0 && runtime.isClassType (runtime.typeId object)) =
      true := Except.ok.inj isInstance
  rw [Bool.and_eq_true] at isClass
  apply haxeBoxReferencePtr_object
  refine ⟨?_, runtime.noInt64 object⟩
  have user := (runtime.classes _ isClass.2).1
  show runtime.typeId object ≠ typeInt
  unfold typeInt
  omega

def Boxes (runtime : Runtime) (value : Value) (boxed : Except Fault Word) : Prop :=
  ∃ box, boxed = .ok box ∧ Carries runtime box value

theorem haxeBoxIntPtr_boxes (isValue : intValue word = some value) :
    Boxes runtime value (haxeBoxIntPtr word) := by
  obtain ⟨int, rfl, rfl⟩ := intValue_eq_some isValue
  exact ⟨_, rfl, .int int⟩

theorem haxeNullIntToDynamic_boxes (isValue : nullIntValue word = some value) :
    Boxes runtime value (haxeNullIntToDynamic word) := by
  rcases nullIntValue_eq_some isValue with ⟨rfl, rfl⟩ | ⟨int, rfl, rfl⟩
  · exact ⟨_, rfl, .null⟩
  · have differs : Word.number (int.signExtend 64) ≠ .number nullInt := by
      intro equal
      exact signExtend_ne_nullInt int (Word.number.inj equal)
    rw [haxeNullIntToDynamic, if_neg differs]
    refine ⟨_, rfl, ?_⟩
    rw [low32_signExtend]
    exact .int int

theorem haxeBoxBoolPtr_boxes (isValue : boolValue word = some value) :
    Boxes runtime value (pure (haxeBoxBoolPtr (!word.isNull))) := by
  obtain ⟨bool, rfl, rfl⟩ := boolValue_eq_some isValue
  cases bool with
  | false => exact ⟨_, rfl, .bool false⟩
  | true => exact ⟨_, rfl, .bool true⟩

theorem haxeBoxFloatPtr_boxes (isValue : floatValue word = some value) :
    Boxes runtime value (do pure (haxeBoxFloatPtr (← word.bits))) := by
  obtain ⟨bits, rfl, rfl⟩ := floatValue_eq_some isValue
  exact ⟨_, rfl, .float bits⟩

theorem haxeBoxInt64Ptr_boxes (isValue : int64Value word = some value) :
    Boxes runtime value (do pure (haxeBoxInt64Ptr (← word.bits))) := by
  obtain ⟨bits, rfl, rfl⟩ := int64Value_eq_some isValue
  refine ⟨_, rfl, ?_⟩
  have carries := @Carries.int64 runtime (bits.sshiftRight 32) (low32 bits)
  rw [joined_halves] at carries
  exact carries

theorem reference_boxes (box : Word → Except Fault Word)
    (isValue : referenceValue runtime word = some value) (ofNull : Boxes runtime .null (box .null))
    (ofObject : ∀ object, BoxesObject runtime object (box (.object object))) :
    Boxes runtime value (box word) := by
  rcases referenceValue_eq_some runtime isValue with ⟨rfl, rfl⟩ | ⟨object, rfl, rfl⟩
  · exact ofNull
  · exact ofObject object

theorem haxeBoxHaxestringPtr_boxes (isValue : referenceValue runtime word = some value) :
    Boxes runtime value (pure (haxeBoxHaxestringPtr word)) :=
  reference_boxes (fun word => pure (haxeBoxHaxestringPtr word)) isValue
    ⟨_, rfl, .nullBox⟩ fun object => ⟨_, rfl, .plainReference _ object (Or.inl rfl)⟩

theorem haxeBoxFunctionPtr_boxes (isValue : referenceValue runtime word = some value) :
    Boxes runtime value (pure (haxeBoxFunctionPtr word)) :=
  reference_boxes (fun word => pure (haxeBoxFunctionPtr word)) isValue
    ⟨_, rfl, .nullBox⟩ fun object => ⟨_, rfl, .plainReference _ object (Or.inr rfl)⟩

theorem haxeBoxArrayPtr_boxes (isValue : referenceValue runtime word = some value) :
    Boxes runtime value (pure (if word.isNull then .null else haxeBoxArrayPtr word)) :=
  reference_boxes (fun word => pure (if word.isNull then .null else haxeBoxArrayPtr word))
    isValue ⟨_, rfl, .null⟩ fun object =>
      haxeBoxReferencePtr_object object (referenceType_of_builtin (by decide) (by decide))

theorem boxReferenceTag_boxes (isValue : referenceValue runtime word = some value) :
    Boxes runtime value (boxReferenceTag runtime.toMachine word) :=
  reference_boxes (boxReferenceTag runtime.toMachine) isValue ⟨_, rfl, .null⟩
    boxReferenceTag_object

theorem interface_boxes (isValue : referenceValue runtime word = some value)
    (isInterface : interfaceWord runtime word = true) :
    Boxes runtime value (do
      boxReferenceTag runtime.toMachine (← haxeIfaceIdentity runtime.toMachine word)) := by
  rcases referenceValue_eq_some runtime isValue with ⟨rfl, rfl⟩ | ⟨object, rfl, rfl⟩
  · exact ⟨_, rfl, .null⟩
  · have identified : haxeIfaceIdentity runtime.toMachine (.object object) =
        .ok (if runtime.padding object = 0 then .object object
          else .object (runtime.wrapped object)) := rfl
    rw [identified]
    by_cases plain : runtime.padding object = 0
    · rw [if_pos plain]
      exact boxReferenceTag_object object
    · rw [if_neg plain]
      have isFat : runtime.isFatPointer object = true := by
        rw [interfaceWord, beq_false_of_ne plain, Bool.false_or] at isInterface
        exact isInterface
      obtain ⟨box, isBox, carries⟩ := @boxReferenceTag_object runtime (runtime.wrapped object)
      have wraps : runtime.identity object = runtime.wrapped object := if_pos isFat
      have isPlain : runtime.identity (runtime.wrapped object) = runtime.wrapped object := by
        rw [Runtime.identity, runtime.wrapped_plain object isFat]
        rfl
      rw [isPlain] at carries
      refine ⟨box, isBox, ?_⟩
      rw [wraps]
      exact carries

theorem haxeBoxTypedPtr_boxes (tag : ValueTag) (isValue : valueOf runtime tag.kind word = some value)
    (isInterface : tag = .interface → interfaceWord runtime word = true) :
    Boxes runtime value (haxeBoxTypedPtr runtime.toMachine word tag.toI32) := by
  cases tag with
  | unresolved => exact haxeBoxIntPtr_boxes isValue
  | int =>
      obtain ⟨int, rfl, rfl⟩ := intValue_eq_some isValue
      exact ⟨_, rfl, .int int⟩
  | bool => exact haxeBoxBoolPtr_boxes isValue
  | float => exact haxeBoxFloatPtr_boxes isValue
  | string => exact haxeBoxHaxestringPtr_boxes isValue
  | reference => exact boxReferenceTag_boxes isValue
  | interface => exact interface_boxes isValue (isInterface rfl)
  | function => exact haxeBoxFunctionPtr_boxes isValue
  | nullInt => exact haxeNullIntToDynamic_boxes isValue
  | enum => exact boxReferenceTag_boxes isValue
  | dynamic => exact ⟨word, rfl, carries_of_dynamicValue runtime isValue⟩
  | array => exact haxeBoxArrayPtr_boxes isValue
  | int64 => exact haxeBoxInt64Ptr_boxes isValue

theorem haxeBoxGenericPtr_object {object : Object} (typeTag : Int) {metadata : Nat}
    (names : metadata % 2 ^ 8 = 6) (isReference : ReferenceType (metadataType metadata)) :
    BoxesObject runtime object
      (haxeBoxGenericPtr runtime.toMachine (.object object) typeTag metadata) := by
  have notArray : ¬ (metadata % 2 ^ 8 = 7 ∧ (Word.object object).isNull = false) := by omega
  rw [haxeBoxGenericPtr, if_neg notArray, if_pos ⟨names, rfl⟩]
  have decides : ∃ isInstance,
      isRawClassInstance runtime.toMachine (.object object) = .ok isInstance := ⟨_, rfl⟩
  obtain ⟨isInstance, isRaw⟩ := decides
  rw [isRaw]
  cases isInstance with
  | true => exact haxeBoxClassInstance_object isRaw
  | false => exact haxeBoxReferencePtr_object object isReference

/-- Boxing by metadata where it names an array or a reference, else by the tag -/
theorem haxeBoxGenericPtr_boxes (tag : ValueTag) {metadata : Nat}
    (fits : metadataFits tag.kind metadata)
    (isValue : valueOf runtime tag.kind word = some value)
    (isInterface : tag = .interface → interfaceWord runtime word = true) :
    Boxes runtime value (haxeBoxGenericPtr runtime.toMachine word tag.toI32 metadata) := by
  have byTag := haxeBoxTypedPtr_boxes tag isValue isInterface
  by_cases isArray : metadata % 2 ^ 8 = 7 ∧ word.isNull = false
  · rw [haxeBoxGenericPtr, if_pos isArray]
    rw [fits.1 isArray.1] at isValue
    rcases referenceValue_eq_some runtime isValue with ⟨-, rfl⟩ | ⟨object, rfl, rfl⟩
    · cases isArray.2
    · exact haxeBoxReferencePtr_object object (referenceType_of_builtin (by decide) (by decide))
  · by_cases isReference : metadata % 2 ^ 8 = 6 ∧ word.isNull = false
    · rw [(fits.2 isReference.1).1] at isValue
      rcases referenceValue_eq_some runtime isValue with ⟨-, rfl⟩ | ⟨object, rfl, rfl⟩
      · cases isReference.2
      · exact haxeBoxGenericPtr_object tag.toI32 isReference.1 (fits.2 isReference.1).2
    · rw [haxeBoxGenericPtr, if_neg isArray, if_neg isReference]
      exact byTag

theorem intSlot_boxes (isValue : nullIntValue word = some value) :
    Boxes runtime value (if word = .number nullInt then pure .null else haxeBoxIntPtr word) := by
  rcases nullIntValue_eq_some isValue with ⟨rfl, rfl⟩ | ⟨int, rfl, rfl⟩
  · exact ⟨_, rfl, .null⟩
  · have differs : Word.number (int.signExtend 64) ≠ .number nullInt := by
      intro equal
      exact signExtend_ne_nullInt int (Word.number.inj equal)
    exact ⟨_, if_neg differs, .int int⟩

theorem referenceSlot_boxes {typeId : Nat} (isReference : ReferenceType typeId)
    (isValue : referenceValue runtime word = some value) :
    Boxes runtime value
      (pure (if word.isNull then word else haxeBoxReferencePtr word typeId)) :=
  reference_boxes (fun word => pure (if word.isNull then word else haxeBoxReferencePtr word typeId))
    isValue ⟨_, rfl, .null⟩ fun object => haxeBoxReferencePtr_object object isReference

theorem boxErasedArraySlot_boxes {layout : Nat} {kind : Kind}
    (stored : storedKind layout = some kind)
    (named : layout % 2 ^ 8 = 6 → layout / 2 ^ 8 ≠ 0 → ReferenceType (metadataType layout))
    (isValue : valueOf runtime kind word = some value) :
    Boxes runtime value (boxErasedArraySlot runtime.toMachine word layout) := by
  unfold storedKind at stored
  unfold boxErasedArraySlot
  split at stored
  case h_1 slotLayout =>
      cases stored
      rw [slotLayout]
      exact ⟨word, rfl, carries_of_dynamicValue runtime isValue⟩
  case h_2 slotLayout =>
      cases stored
      rw [slotLayout]
      exact haxeBoxBoolPtr_boxes isValue
  case h_3 slotLayout =>
      cases stored
      rw [slotLayout]
      exact intSlot_boxes isValue
  case h_4 slotLayout =>
      cases stored
      rw [slotLayout]
      exact haxeBoxFloatPtr_boxes isValue
  case h_5 slotLayout =>
      cases stored
      rw [slotLayout]
      exact referenceSlot_boxes (referenceType_of_builtin (by decide) (by decide)) isValue
  case h_6 slotLayout =>
      cases stored
      rw [slotLayout]
      rcases referenceValue_eq_some runtime isValue with ⟨rfl, rfl⟩ | ⟨object, rfl, rfl⟩
      · exact ⟨_, rfl, .null⟩
      · by_cases unnamed : layout / 2 ^ 8 = 0
        · obtain ⟨box, isBox, carries⟩ := @boxReferenceTag_object runtime object
          exact ⟨box, (if_pos unnamed).trans isBox, carries⟩
        · obtain ⟨box, isBox, carries⟩ := @haxeBoxGenericPtr_object runtime object
            ValueTag.reference.toI32 layout slotLayout (named slotLayout unnamed)
          exact ⟨box, (if_neg unnamed).trans isBox, carries⟩
  case h_7 slotLayout =>
      cases stored
      rw [slotLayout]
      exact referenceSlot_boxes (referenceType_of_builtin (by decide) (by decide)) isValue
  case h_8 slotLayout =>
      cases stored
      rw [slotLayout]
      exact haxeNullIntToDynamic_boxes isValue
  case h_9 slotLayout =>
      cases stored
      rw [slotLayout]
      exact haxeBoxInt64Ptr_boxes isValue
  case h_10 => cases stored

end Rayzor.Views
