import Rayzor.Views.Boxing

/-!
Contract: reads of an array agree with its writes, through either view.

Owns: arrays whose layout is recorded; the values an array holds after a run of
writes; that a write stores its value and a read converts it.
-/

namespace Rayzor.Views

open Arrays (haxeArrayIntElems haxeArrayBoxedElems haxeArraySlotLayout storedSlotLayout)

variable (runtime : Runtime)

/-! ### Recorded layouts -/

def slotKind (layout : Nat) : Option Kind :=
  if layout % 2 ^ 8 = 3 then some .int else storedKind layout

/-- The flags say what the slots hold, as the functions that record a layout leave them. -/
structure Recorded (flags layout : Nat) : Prop where
  stored : storedSlotLayout flags = some layout
  raw : flags &&& haxeArrayBoxedElems = 0 → 2 ≤ layout % 2 ^ 8 ∧ layout % 2 ^ 8 ≤ 9
  intElems : flags &&& haxeArrayBoxedElems = 0 →
    (flags &&& haxeArrayIntElems ≠ 0 ↔ layout % 2 ^ 8 = 3)
  named : layout % 2 ^ 8 = 6 → layout / 2 ^ 8 ≠ 0 → ReferenceType (metadataType layout)

/-! ### Values written -/

/-- The tags a raw slot takes: Dynamic, those whose bits it holds, an Int where every Int has
a place, and a Float where it is stored truncated. -/
def admits (tag : ValueTag) (layout : Nat) : Bool :=
  tag == .dynamic || sameLayout tag.toI32 layout ||
    (tag == .int && (layout % 2 ^ 8 == 8 || layout % 2 ^ 8 == 9)) ||
    (tag == .float && layout % 2 ^ 8 == 3)

/-- The value in the slot after a word is written by its tag; a raw slot converts it. -/
def writtenBy (flags layout : Nat) (tag : ValueTag) (word : Word) (metadata : Nat) :
    Option Value :=
  if flags &&& haxeArrayBoxedElems ≠ 0 then
    if metadataFits tag.kind metadata ∧ (tag = .interface → interfaceWord runtime word = true) then
      valueOf runtime tag.kind word
    else none
  else if admits tag layout then
    if tag = .nullInt then valueOf runtime tag.kind word
    else do (← valueOf runtime tag.kind word).convert (← slotKind layout)
  else none

def written (flags layout : Nat) (tag : Int) (word : Word) (metadata : Nat) : Option Value := do
  writtenBy runtime flags layout (← ValueTag.fromI32 tag) word metadata

/-- The value in the slot after a Dynamic is written through an erased view -/
def writtenErased (layout : Nat) (word : Word) : Option Value := do
  (← dynamicValue runtime word).convert (← slotKind layout)

/-- The value a write gives its element, where it is one the slots take -/
def Write.value (flags layout : Nat) : Write → Option Value
  | .setTyped _ word tag metadata => written runtime flags layout tag word metadata
  | .pushTyped word tag metadata => written runtime flags layout tag word metadata
  | .insertTyped _ word tag metadata => written runtime flags layout tag word metadata
  | .unshiftTyped word tag metadata => written runtime flags layout tag word metadata
  | .setErased _ _ word => writtenErased runtime layout word

def Write.record (elements : List (Option Value)) (value : Option Value) :
    Write → List (Option Value)
  | .setTyped index _ _ _ => assigned elements none index value
  | .pushTyped _ _ _ => elements ++ [value]
  | .insertTyped index _ _ _ => elements.insertIdx (insertPos elements.length index) value
  | .unshiftTyped _ _ _ => value :: elements
  | .setErased _ index _ => if index < 0 then elements else assigned elements none index.toNat value

def recordAll (flags layout : Nat) (elements : List (Option Value)) :
    List Write → List (Option Value)
  | [] => elements
  | write :: rest =>
      recordAll flags layout (write.record elements (write.value runtime flags layout)) rest

/-- The word is read as the value. An Int reader takes the low half, which is zero for the
null an Int slot can hold. -/
def ReadsAs (kind : Kind) (read : Word) (value : Value) : Prop :=
  match kind with
  | .erased => Bare runtime read value
  | .int => intValue read = some value ∨ read = .number nullInt ∧ value = .int 0
  | _ => valueOf runtime kind read = some value

/-! ### Storing -/

def Holds (layout : Nat) (word : Word) (value : Value) : Prop :=
  ∃ kind, storedKind layout = some kind ∧ valueOf runtime kind word = some value

variable {runtime} {flags layout : Nat} {word : Word} {value result : Value}

theorem fromI32_eq_some {number : Int} {tag : ValueTag} (isTag : ValueTag.fromI32 number = some tag) :
    number = tag.toI32 := by
  unfold ValueTag.fromI32 at isTag
  split at isTag
  all_goals cases isTag
  all_goals rfl

theorem unboxForSlot_holds (carries : Carries runtime word value) {kind : Kind}
    (slot : slotKind layout = some kind) (converts : value.convert kind = some result) :
    ∃ stored, unboxForSlot runtime.toMachine layout word = .ok stored ∧
      Holds runtime layout stored result := by
  unfold unboxForSlot
  by_cases isInt : layout % 2 ^ 8 = 3
  · rw [slotKind, if_pos isInt] at slot
    cases slot
    obtain ⟨int, rfl, unboxes⟩ := haxeCoerceDynamicToInt_opensInt.of_carries carries converts
    rw [isInt]
    refine ⟨_, unboxes, .nullInt, ?_, nullIntValue_signExtend int⟩
    rw [storedKind, isInt]
    rfl
  · rw [slotKind, if_neg isInt] at slot
    unfold Holds
    rw [slot]
    unfold storedKind at slot
    split at slot
    case h_1 slotLayout =>
        cases slot
        cases converts
        rw [slotLayout]
        exact ⟨word, rfl, _, rfl, carries.dynamicValue⟩
    case h_2 slotLayout =>
        cases slot
        obtain ⟨bool, rfl, unboxes⟩ := haxeUnboxBoolPtr_of_carries carries converts
        rw [slotLayout]
        refine ⟨.number (if bool then 1 else 0), ?_, _, rfl, boolValue_ite bool⟩
        show (do pure (Word.number (if ← haxeUnboxBoolPtr runtime.toMachine word then 1 else 0)) :
          Except Fault Word) = _
        rw [unboxes]
        rfl
    case h_3 slotLayout => exact absurd slotLayout isInt
    case h_4 slotLayout =>
        cases slot
        obtain ⟨bits, rfl, unboxes⟩ := haxeUnboxFloatPtr_of_carries carries converts
        rw [slotLayout]
        refine ⟨.number bits, ?_, _, rfl, rfl⟩
        show Word.number <$> haxeUnboxFloatPtr runtime.toMachine word = _
        rw [unboxes]
        rfl
    case h_8 slotLayout =>
        cases slot
        obtain ⟨read, unboxes, isValue⟩ := haxeNullIntFromDynamic_of_carries carries converts
        rw [slotLayout]
        exact ⟨read, unboxes, _, rfl, isValue⟩
    case h_9 slotLayout =>
        cases slot
        obtain ⟨bits, rfl, unboxes⟩ := haxeUnboxIntPtr_of_carries_int64 carries converts
        rw [slotLayout]
        exact ⟨_, unboxes, _, rfl, rfl⟩
    case h_10 => cases slot
    all_goals
      rename_i slotLayout
      cases slot
      obtain ⟨read, unboxes, isValue⟩ := haxeUnboxReferencePtr_of_carries carries converts
      rw [slotLayout]
      exact ⟨read, unboxes, _, rfl, isValue⟩

theorem storedKind_of_low {number : Nat} (isLow : layout % 2 ^ 8 = number % 2 ^ 8) :
    storedKind layout = storedKind number := by
  unfold storedKind
  rw [isLow]

theorem slotKind_of_low {number : Nat} (isLow : layout % 2 ^ 8 = number % 2 ^ 8) :
    slotKind layout = slotKind number := by
  unfold slotKind
  rw [isLow, storedKind_of_low isLow]

theorem raw_holds {tag : ValueTag} (same : sameLayout tag.toI32 layout = true)
    (isValue : valueOf runtime tag.kind word = some value) : Holds runtime layout word value := by
  unfold sameLayout at same
  rw [ValueTag.fromI32_toI32] at same
  cases tag with
  | unresolved => cases same
  | dynamic => cases same
  | int =>
      obtain ⟨int, rfl, rfl⟩ := intValue_eq_some isValue
      exact ⟨_, @storedKind_of_low layout 3 (eq_of_beq same), nullIntValue_signExtend int⟩
  | nullInt =>
      rcases (Bool.or_eq_true _ _).mp same with isInt | isNullInt
      · exact ⟨_, @storedKind_of_low layout 3 (eq_of_beq isInt), isValue⟩
      · exact ⟨_, @storedKind_of_low layout 8 (eq_of_beq isNullInt), isValue⟩
  | bool => exact ⟨_, @storedKind_of_low layout 2 (eq_of_beq same), isValue⟩
  | float => exact ⟨_, @storedKind_of_low layout 4 (eq_of_beq same), isValue⟩
  | string => exact ⟨_, @storedKind_of_low layout 5 (eq_of_beq same), isValue⟩
  | array => exact ⟨_, @storedKind_of_low layout 7 (eq_of_beq same), isValue⟩
  | int64 => exact ⟨_, @storedKind_of_low layout 9 (eq_of_beq same), isValue⟩
  | reference | enum | function | interface =>
      exact ⟨_, @storedKind_of_low layout 6 (eq_of_beq same), isValue⟩

theorem slotKind_of_same {tag : ValueTag} (same : sameLayout tag.toI32 layout = true)
    (notNullInt : tag ≠ .nullInt) : slotKind layout = some tag.kind := by
  unfold sameLayout at same
  rw [ValueTag.fromI32_toI32] at same
  cases tag with
  | unresolved => cases same
  | dynamic => cases same
  | nullInt => exact absurd rfl notNullInt
  | int => exact @slotKind_of_low layout 3 (eq_of_beq same)
  | bool => exact @slotKind_of_low layout 2 (eq_of_beq same)
  | float => exact @slotKind_of_low layout 4 (eq_of_beq same)
  | string => exact @slotKind_of_low layout 5 (eq_of_beq same)
  | array => exact @slotKind_of_low layout 7 (eq_of_beq same)
  | int64 => exact @slotKind_of_low layout 9 (eq_of_beq same)
  | reference | enum | function | interface => exact @slotKind_of_low layout 6 (eq_of_beq same)

theorem convert_self {kind : Kind} (isValue : valueOf runtime kind word = some value) :
    value.convert kind = some value := by
  cases kind with
  | erased => rfl
  | dynamic => rfl
  | bool => obtain ⟨bool, rfl, -⟩ := boolValue_eq_some isValue; rfl
  | int => obtain ⟨int, rfl, -⟩ := intValue_eq_some isValue; rfl
  | nullInt => rcases nullIntValue_eq_some isValue with ⟨rfl, -⟩ | ⟨int, rfl, -⟩ <;> rfl
  | float => obtain ⟨bits, rfl, -⟩ := floatValue_eq_some isValue; rfl
  | int64 => obtain ⟨bits, rfl, -⟩ := int64Value_eq_some isValue; rfl
  | reference =>
      rcases referenceValue_eq_some runtime isValue with ⟨rfl, -⟩ | ⟨object, rfl, -⟩ <;> rfl

/-! ### One write -/

def Encodes (runtime : Runtime) (layout : Nat) (encoded : Except Fault Word) (value : Value) :
    Prop :=
  ∃ stored, encoded = .ok stored ∧ Holds runtime layout stored value

theorem encode_boxed (recorded : Recorded flags layout)
    (isBoxed : flags &&& haxeArrayBoxedElems ≠ 0) {tag : ValueTag} {metadata : Nat}
    (fits : metadataFits tag.kind metadata)
    (isInterface : tag = .interface → interfaceWord runtime word = true)
    (isValue : valueOf runtime tag.kind word = some value) :
    Encodes runtime layout
      (encodeTypedArraySlot runtime.toMachine flags word tag.toI32 metadata) value := by
  have isZero : layout = 0 := by
    have stored := recorded.stored
    rw [storedSlotLayout, if_pos isBoxed] at stored
    exact (Option.some.inj stored).symm
  obtain ⟨box, isBox, carries⟩ := haxeBoxGenericPtr_boxes tag fits isValue isInterface
  refine ⟨box, ?_, .dynamic, ?_, carries.dynamicValue⟩
  · rw [encodeTypedArraySlot, if_pos isBoxed, isBox]
  · rw [isZero]
    rfl

theorem encode_dynamic (recorded : Recorded flags layout)
    (isRaw : flags &&& haxeArrayBoxedElems = 0) (metadata : Nat) :
    encodeTypedArraySlot runtime.toMachine flags word ValueTag.dynamic.toI32 metadata =
      unboxForSlot runtime.toMachine layout word := by
  rw [encodeTypedArraySlot, if_neg (not_not.mpr isRaw), if_pos rfl, recorded.stored]

theorem encode_raw (isRaw : flags &&& haxeArrayBoxedElems = 0) {tag : ValueTag}
    (notDynamic : tag ≠ .dynamic) (metadata : Nat) :
    encodeTypedArraySlot runtime.toMachine flags word tag.toI32 metadata =
      if flags &&& haxeArrayIntElems ≠ 0 ∧ tag.toI32 = ValueTag.float.toI32 then do
        pure (.number (f64AsI64 (← word.bits)))
      else pure word := by
  have differs : tag.toI32 ≠ ValueTag.dynamic.toI32 := by
    intro same
    have tags := congrArg ValueTag.fromI32 same
    rw [ValueTag.fromI32_toI32, ValueTag.fromI32_toI32] at tags
    exact notDynamic (Option.some.inj tags)
  rw [encodeTypedArraySlot, if_neg (not_not.mpr isRaw), if_neg differs]

theorem encode_kept (recorded : Recorded flags layout)
    (isRaw : flags &&& haxeArrayBoxedElems = 0) {tag : ValueTag} (notDynamic : tag ≠ .dynamic)
    (kept : tag = .float → layout % 2 ^ 8 ≠ 3) (metadata : Nat) :
    encodeTypedArraySlot runtime.toMachine flags word tag.toI32 metadata = .ok word := by
  have untruncated :
      ¬ (flags &&& haxeArrayIntElems ≠ 0 ∧ tag.toI32 = ValueTag.float.toI32) := by
    intro both
    have tags := congrArg ValueTag.fromI32 both.2
    rw [ValueTag.fromI32_toI32, ValueTag.fromI32_toI32] at tags
    exact kept (Option.some.inj tags) ((recorded.intElems isRaw).mp both.1)
  rw [encode_raw isRaw notDynamic, if_neg untruncated]
  rfl

theorem int_holds (wide : layout % 2 ^ 8 = 8 ∨ layout % 2 ^ 8 = 9) {kind : Kind}
    (slot : slotKind layout = some kind) (isValue : intValue word = some value)
    (converts : value.convert kind = some result) : Holds runtime layout word result := by
  obtain ⟨int, rfl, rfl⟩ := intValue_eq_some isValue
  cases wide with
  | inl isNullInt =>
      rw [@slotKind_of_low layout 8 isNullInt] at slot
      cases slot
      cases converts
      exact ⟨_, @storedKind_of_low layout 8 isNullInt, nullIntValue_signExtend int⟩
  | inr isInt64 =>
      rw [@slotKind_of_low layout 9 isInt64] at slot
      cases slot
      cases converts
      exact ⟨_, @storedKind_of_low layout 9 isInt64, rfl⟩

theorem float_encodes (recorded : Recorded flags layout)
    (isRaw : flags &&& haxeArrayBoxedElems = 0) (isInt : layout % 2 ^ 8 = 3) {kind : Kind}
    (slot : slotKind layout = some kind) (isValue : floatValue word = some value)
    (converts : value.convert kind = some result) (metadata : Nat) :
    Encodes runtime layout
      (encodeTypedArraySlot runtime.toMachine flags word ValueTag.float.toI32 metadata)
      result := by
  obtain ⟨bits, rfl, rfl⟩ := floatValue_eq_some isValue
  rw [@slotKind_of_low layout 3 isInt] at slot
  cases slot
  obtain ⟨int, truncated, rfl⟩ := Option.map_eq_some_iff.mp converts
  have isMarked := (recorded.intElems isRaw).mpr isInt
  rw [encode_raw isRaw (by decide), if_pos ⟨isMarked, rfl⟩]
  refine ⟨.number (f64AsI64 bits), rfl, .nullInt, @storedKind_of_low layout 3 isInt, ?_⟩
  rw [f64AsI64_truncated truncated]
  exact nullIntValue_signExtend int

theorem converted_encodes (recorded : Recorded flags layout)
    (isRaw : flags &&& haxeArrayBoxedElems = 0) {tag : ValueTag} {metadata : Nat} {kind : Kind}
    (admitted : admits tag layout = true) (notNullInt : tag ≠ .nullInt)
    (isValue : valueOf runtime tag.kind word = some value) (slot : slotKind layout = some kind)
    (converts : value.convert kind = some result) :
    Encodes runtime layout
      (encodeTypedArraySlot runtime.toMachine flags word tag.toI32 metadata) result := by
  by_cases isDynamic : tag = .dynamic
  · rw [isDynamic] at isValue ⊢
    rw [encode_dynamic recorded isRaw]
    exact unboxForSlot_holds (carries_of_dynamicValue runtime isValue) slot converts
  · by_cases isFloat : tag = .float ∧ layout % 2 ^ 8 = 3
    · rw [isFloat.1] at isValue ⊢
      exact float_encodes recorded isRaw isFloat.2 slot isValue converts metadata
    · have kept : tag = .float → layout % 2 ^ 8 ≠ 3 := fun float isInt => isFloat ⟨float, isInt⟩
      refine ⟨word, encode_kept recorded isRaw isDynamic kept metadata, ?_⟩
      by_cases same : sameLayout tag.toI32 layout = true
      · rw [slotKind_of_same same notNullInt] at slot
        cases slot
        rw [convert_self isValue] at converts
        cases converts
        exact raw_holds same isValue
      · have isInt : tag = .int ∧ (layout % 2 ^ 8 = 8 ∨ layout % 2 ^ 8 = 9) := by
          simp only [admits, Bool.or_eq_true, Bool.and_eq_true, beq_iff_eq] at admitted
          grind
        rw [isInt.1] at isValue
        exact int_holds isInt.2 slot isValue converts

theorem written_encodes (recorded : Recorded flags layout) {tag : Int} {metadata : Nat}
    (isWritten : written runtime flags layout tag word metadata = some result) :
    Encodes runtime layout (encodeTypedArraySlot runtime.toMachine flags word tag metadata)
      result := by
  obtain ⟨valueTag, isTag, isWrittenBy⟩ := Option.bind_eq_some_iff.mp isWritten
  rw [fromI32_eq_some isTag]
  rw [writtenBy] at isWrittenBy
  split at isWrittenBy
  · rename_i isBoxed
    split at isWrittenBy
    · rename_i fits
      exact encode_boxed recorded isBoxed fits.1 fits.2 isWrittenBy
    · cases isWrittenBy
  · rename_i notBoxed
    have isRaw := not_not.mp notBoxed
    split at isWrittenBy
    · rename_i admitted
      split at isWrittenBy
      · rename_i isNullInt
        have same : sameLayout valueTag.toI32 layout = true := by
          rw [isNullInt] at admitted ⊢
          simpa [admits] using admitted
        have kept : valueTag = .float → layout % 2 ^ 8 ≠ 3 := by
          rw [isNullInt]
          intro float
          cases float
        refine ⟨word, encode_kept recorded isRaw ?_ kept metadata, raw_holds same isWrittenBy⟩
        rw [isNullInt]
        decide
      · rename_i notNullInt
        obtain ⟨value, isValue, converted⟩ := Option.bind_eq_some_iff.mp isWrittenBy
        obtain ⟨kind, slot, converts⟩ := Option.bind_eq_some_iff.mp converted
        exact converted_encodes recorded isRaw admitted notNullInt isValue slot converts
    · cases isWrittenBy

theorem writtenErased_encodes (isWritten : writtenErased runtime layout word = some result) :
    Encodes runtime layout (unboxForSlot runtime.toMachine layout word) result := by
  obtain ⟨value, isValue, converted⟩ := Option.bind_eq_some_iff.mp isWritten
  obtain ⟨kind, slot, converts⟩ := Option.bind_eq_some_iff.mp converted
  exact unboxForSlot_holds (carries_of_dynamicValue runtime isValue) slot converts

/-! ### One read -/

def Yields (runtime : Runtime) (kind : Kind) (read : Except Fault Word) (value : Value) : Prop :=
  ∃ word, read = .ok word ∧ ReadsAs runtime kind word value

variable {boxed : Word}

theorem int_yields (carries : Carries runtime boxed value)
    (converts : value.convert .int = some result) :
    Yields runtime .int (haxeUnboxIntPtr runtime.toMachine boxed) result := by
  obtain ⟨int, rfl, unboxes⟩ := haxeUnboxIntPtr_opensInt.of_carries carries converts
  exact ⟨_, unboxes, Or.inl (intValue_signExtend int)⟩

theorem bool_yields (carries : Carries runtime boxed value)
    (converts : value.convert .bool = some result) :
    Yields runtime .bool (do
      pure (.number (if ← haxeUnboxBoolPtr runtime.toMachine boxed then 1 else 0))) result := by
  obtain ⟨bool, rfl, unboxes⟩ := haxeUnboxBoolPtr_of_carries carries converts
  rw [unboxes]
  exact ⟨_, rfl, boolValue_ite bool⟩

theorem float_yields (carries : Carries runtime boxed value)
    (converts : value.convert .float = some result) :
    Yields runtime .float (Word.number <$> haxeUnboxFloatPtr runtime.toMachine boxed) result := by
  obtain ⟨bits, rfl, unboxes⟩ := haxeUnboxFloatPtr_of_carries carries converts
  rw [unboxes]
  exact ⟨_, rfl, rfl⟩

theorem reference_yields (carries : Carries runtime boxed value)
    (converts : value.convert .reference = some result) :
    Yields runtime .reference (haxeUnboxReferencePtr runtime.toMachine boxed) result := by
  obtain ⟨read, unboxes, isValue⟩ := haxeUnboxReferencePtr_of_carries carries converts
  exact ⟨read, unboxes, isValue⟩

theorem dynamic_yields (carries : Carries runtime boxed value)
    (converts : value.convert .dynamic = some result) :
    Yields runtime .dynamic (pure boxed) result := by
  cases converts
  exact ⟨boxed, rfl, carries.dynamicValue⟩

theorem unboxAs_yields {tag : Int} (typed : tag ≠ ValueTag.unresolved.toI32)
    (carries : Carries runtime boxed value)
    (converts : value.convert (kindOfTag tag) = some result) :
    Yields runtime (kindOfTag tag) (unboxAs runtime.toMachine boxed tag) result := by
  unfold kindOfTag at converts ⊢
  unfold unboxAs
  cases isTag : ValueTag.fromI32 tag with
  | none =>
      rw [isTag] at converts
      exact dynamic_yields carries converts
  | some valueTag =>
      rw [isTag] at converts
      cases valueTag with
      | unresolved => exact absurd (fromI32_eq_some isTag) typed
      | int => exact int_yields carries converts
      | bool => exact bool_yields carries converts
      | float => exact float_yields carries converts
      | string | reference | interface | function | enum | array =>
          exact reference_yields carries converts
      | nullInt =>
          obtain ⟨read, unboxes, isValue⟩ := haxeNullIntFromDynamic_of_carries carries converts
          exact ⟨read, unboxes, isValue⟩
      | dynamic => exact dynamic_yields carries converts
      | int64 =>
          obtain ⟨bits, rfl, unboxes⟩ := haxeUnboxIntPtr_of_carries_int64 carries converts
          exact ⟨_, unboxes, rfl⟩

/-- The targets of erased readers: those of a type, and all others. -/
theorem target_cases (target : Int) :
    target = 1 ∨ target = 2 ∨ target = 3 ∨ target = 5 ∨ kindOfTarget target = .dynamic ∧
      ∀ boxed, unboxForTarget runtime.toMachine boxed target = pure boxed := by
  by_cases isInt : target = 1
  · exact Or.inl isInt
  by_cases isFloat : target = 2
  · exact Or.inr (Or.inl isFloat)
  by_cases isBool : target = 3
  · exact Or.inr (Or.inr (Or.inl isBool))
  by_cases isReference : target = 5
  · exact Or.inr (Or.inr (Or.inr (Or.inl isReference)))
  refine Or.inr (Or.inr (Or.inr (Or.inr ⟨?_, ?_⟩)))
  · unfold kindOfTarget
    split
    all_goals first | contradiction | rfl
  · intro boxed
    unfold unboxForTarget
    split
    all_goals first | contradiction | rfl

theorem unboxForTarget_yields {target : Int} (carries : Carries runtime boxed value)
    (converts : value.convert (kindOfTarget target) = some result) :
    Yields runtime (kindOfTarget target) (unboxForTarget runtime.toMachine boxed target)
      result := by
  rcases @target_cases runtime target with rfl | rfl | rfl | rfl | ⟨isDynamic, unboxes⟩
  · exact int_yields carries converts
  · exact float_yields carries converts
  · exact bool_yields carries converts
  · exact reference_yields carries converts
  · rw [isDynamic] at converts ⊢
    rw [unboxes]
    exact dynamic_yields carries converts

/-- What a raw slot holds is read as it is where nothing says what it is. -/
theorem bare_of_holds {kind : Kind} (isRaw : kind ≠ .dynamic ∧ kind ≠ .erased)
    (isValue : valueOf runtime kind word = some value) : Bare runtime word value := by
  cases kind with
  | erased => exact absurd rfl isRaw.2
  | dynamic => exact absurd rfl isRaw.1
  | bool => obtain ⟨bool, rfl, rfl⟩ := boolValue_eq_some isValue; rfl
  | int => obtain ⟨int, rfl, rfl⟩ := intValue_eq_some isValue; rfl
  | nullInt =>
      rcases nullIntValue_eq_some isValue with ⟨rfl, rfl⟩ | ⟨int, rfl, rfl⟩
      · exact Or.inr rfl
      · rfl
  | float => obtain ⟨bits, rfl, rfl⟩ := floatValue_eq_some isValue; rfl
  | int64 => obtain ⟨bits, rfl, rfl⟩ := int64Value_eq_some isValue; exact Or.inl rfl
  | reference =>
      rcases referenceValue_eq_some runtime isValue with ⟨rfl, rfl⟩ | ⟨object, rfl, rfl⟩
      · exact Or.inl rfl
      · exact ⟨object, rfl, rfl⟩

theorem storedKind_raw {kind : Kind} (raw : 2 ≤ layout % 2 ^ 8)
    (stored : storedKind layout = some kind) : kind ≠ .dynamic ∧ kind ≠ .erased := by
  unfold storedKind at stored
  split at stored
  case h_1 slotLayout => omega
  all_goals
    cases stored
    try exact ⟨by decide, by decide⟩

theorem bare_yields (recorded : Recorded flags layout) (holds : Holds runtime layout word value) :
    Yields runtime .erased
      (if flags &&& haxeArrayBoxedElems ≠ 0 then haxeUnboxErasedReturn runtime.toMachine word
        else pure word) value := by
  obtain ⟨kind, stored, isValue⟩ := holds
  by_cases isBoxed : flags &&& haxeArrayBoxedElems ≠ 0
  · have isZero : storedSlotLayout flags = some 0 := if_pos isBoxed
    rw [recorded.stored] at isZero
    rw [Option.some.inj isZero] at stored
    cases stored
    rw [if_pos isBoxed]
    exact haxeUnboxErasedReturn_of_carries (carries_of_dynamicValue runtime isValue)
  · rw [if_neg isBoxed]
    have raw := (recorded.raw (not_not.mp isBoxed)).1
    exact ⟨word, rfl, bare_of_holds (storedKind_raw raw stored) isValue⟩

/-- A slot whose bits are those of the tag is read as they are. -/
theorem same_yields {tag : Int} (same : sameLayout tag layout = true)
    (holds : Holds runtime layout word value)
    (converts : value.convert (kindOfTag tag) = some result) :
    Yields runtime (kindOfTag tag) (pure word) result := by
  obtain ⟨kind, stored, isValue⟩ := holds
  refine ⟨word, rfl, ?_⟩
  cases isTag : ValueTag.fromI32 tag with
  | none =>
      rw [sameLayout, isTag] at same
      cases same
  | some valueTag =>
      rw [kindOfTag, isTag] at converts ⊢
      rw [fromI32_eq_some isTag] at same
      unfold sameLayout at same
      rw [ValueTag.fromI32_toI32] at same
      cases valueTag with
      | unresolved => cases same
      | dynamic => cases same
      | int =>
          rw [@storedKind_of_low layout 3 (eq_of_beq same)] at stored
          cases stored
          rcases nullIntValue_eq_some isValue with ⟨rfl, rfl⟩ | ⟨int, rfl, rfl⟩
          · cases converts
            exact Or.inr ⟨rfl, rfl⟩
          · cases converts
            exact Or.inl (intValue_signExtend int)
      | nullInt =>
          have isNullInt : kind = .nullInt := by
            rcases (Bool.or_eq_true _ _).mp same with isInt | isNullInt
            · rw [@storedKind_of_low layout 3 (eq_of_beq isInt)] at stored
              exact (Option.some.inj stored).symm
            · rw [@storedKind_of_low layout 8 (eq_of_beq isNullInt)] at stored
              exact (Option.some.inj stored).symm
          rw [isNullInt] at isValue
          exact isValue.trans ((convert_self isValue).symm.trans converts)
      | bool =>
          rw [@storedKind_of_low layout 2 (eq_of_beq same)] at stored
          cases stored
          exact isValue.trans ((convert_self isValue).symm.trans converts)
      | float =>
          rw [@storedKind_of_low layout 4 (eq_of_beq same)] at stored
          cases stored
          exact isValue.trans ((convert_self isValue).symm.trans converts)
      | string =>
          rw [@storedKind_of_low layout 5 (eq_of_beq same)] at stored
          cases stored
          exact isValue.trans ((convert_self isValue).symm.trans converts)
      | array =>
          rw [@storedKind_of_low layout 7 (eq_of_beq same)] at stored
          cases stored
          exact isValue.trans ((convert_self isValue).symm.trans converts)
      | int64 =>
          rw [@storedKind_of_low layout 9 (eq_of_beq same)] at stored
          cases stored
          exact isValue.trans ((convert_self isValue).symm.trans converts)
      | reference | enum | function | interface =>
          rw [@storedKind_of_low layout 6 (eq_of_beq same)] at stored
          cases stored
          exact isValue.trans ((convert_self isValue).symm.trans converts)

theorem slot_boxes (recorded : Recorded flags layout) (holds : Holds runtime layout word value) :
    Boxes runtime value (boxErasedArraySlot runtime.toMachine word layout) := by
  obtain ⟨kind, stored, isValue⟩ := holds
  exact boxErasedArraySlot_boxes stored recorded.named isValue

theorem decodeSlot_yields (recorded : Recorded flags layout)
    (holds : Holds runtime layout word value) {tag : Int}
    (converts : value.convert (kindOfTag tag) = some result) :
    Yields runtime (kindOfTag tag) (decodeSlot runtime.toMachine flags word tag) result := by
  by_cases untyped : tag = ValueTag.unresolved.toI32
  · rw [decodeSlot, if_pos untyped]
    rw [untyped] at converts ⊢
    cases converts
    exact bare_yields recorded holds
  · rw [decodeSlot, if_neg untyped, recorded.stored]
    dsimp only
    by_cases same : sameLayout tag layout = true
    · rw [if_pos same]
      exact same_yields same holds converts
    · rw [if_neg same]
      obtain ⟨boxed, boxes, carries⟩ := slot_boxes recorded holds
      rw [boxes]
      exact unboxAs_yields untyped carries converts

/-- Null is read without a box. -/
theorem null_yields {target : Int} (carries : Carries runtime .null value)
    (converts : value.convert (kindOfTarget target) = some result) :
    Yields runtime (kindOfTarget target) (pure .null) result := by
  rcases @target_cases runtime target with rfl | rfl | rfl | rfl | ⟨isDynamic, unboxes⟩
  · exact int_yields carries converts
  · exact float_yields carries converts
  · exact bool_yields carries converts
  · exact reference_yields carries converts
  · rw [isDynamic] at converts ⊢
    exact dynamic_yields carries converts

/-! ### Elements -/

variable {array after : HaxeArray} {elements : List (Option Value)}

def Agrees (runtime : Runtime) (layout : Nat) (slots : List Word)
    (elements : List (Option Value)) : Prop :=
  List.Forall₂ (fun word element => ∀ value, element = some value → Holds runtime layout word value)
    slots elements

theorem Agrees.lookup {slots : List Word} (agrees : Agrees runtime layout slots elements)
    {index : Nat} (isWritten : elements[index]? = some (some value)) :
    ∃ word, slots[index]? = some word ∧ Holds runtime layout word value := by
  obtain ⟨inside, isElement⟩ := List.getElem?_eq_some_iff.mp isWritten
  have same := agrees.length_eq
  have within : index < slots.length := by omega
  refine ⟨slots[index], List.getElem?_eq_getElem within, ?_⟩
  have related := agrees.get within inside
  exact related value isElement

theorem haxeArrayGetTyped_yields (recorded : Recorded array.flags layout)
    (agrees : Agrees runtime layout array.slots elements) {index : Nat}
    (isWritten : elements[index]? = some (some value)) {tag : Int}
    (converts : value.convert (kindOfTag tag) = some result) :
    Yields runtime (kindOfTag tag) (haxeArrayGetTyped runtime.toMachine array index tag)
      result := by
  obtain ⟨word, isSlot, holds⟩ := agrees.lookup isWritten
  have notNegative : ¬ (index : Int) < 0 := by omega
  rw [haxeArrayGetTyped, if_neg notNegative, Int.toNat_natCast, isSlot]
  exact decodeSlot_yields recorded holds converts

theorem haxeArrayGetErased_yields (recorded : Recorded array.flags layout)
    (agrees : Agrees runtime layout array.slots elements) {index : Nat}
    (isWritten : elements[index]? = some (some value)) (boxLayout : Option Nat) {target : Int}
    (converts : value.convert (kindOfTarget target) = some result) :
    Yields runtime (kindOfTarget target)
      (haxeArrayGetErased runtime.toMachine array boxLayout index target) result := by
  obtain ⟨word, isSlot, holds⟩ := agrees.lookup isWritten
  obtain ⟨boxed, boxes, carries⟩ := slot_boxes recorded holds
  have notNegative : ¬ (index : Int) < 0 := by omega
  rw [haxeArrayGetErased, if_neg notNegative, Int.toNat_natCast, isSlot, recorded.stored]
  show Yields runtime _ (do
    let boxed ← boxErasedArraySlot runtime.toMachine word layout
    if boxed.isNull then pure .null else unboxForTarget runtime.toMachine boxed target) result
  rw [boxes]
  show Yields runtime _ (if boxed.isNull then pure .null
    else unboxForTarget runtime.toMachine boxed target) result
  by_cases isNull : boxed.isNull = true
  · rw [if_pos isNull]
    rw [eq_of_beq isNull] at carries
    exact null_yields carries converts
  · rw [if_neg isNull]
    exact unboxForTarget_yields carries converts

/-! ### Runs -/

section Lists

variable {α β : Type} {relation : α → β → Prop} {firsts : List α} {seconds : List β} {first : α}
  {second : β}

theorem forall₂_insertIdx (related : List.Forall₂ relation firsts seconds)
    (new : relation first second) (index : Nat) :
    List.Forall₂ relation (firsts.insertIdx index first) (seconds.insertIdx index second) := by
  induction related generalizing index with
  | nil =>
      cases index with
      | zero => exact .cons new .nil
      | succ index => exact .nil
  | cons head tail ih =>
      cases index with
      | zero => exact .cons new (.cons head tail)
      | succ index => exact .cons head (ih index)

theorem forall₂_set (related : List.Forall₂ relation firsts seconds)
    (new : relation first second) (index : Nat) :
    List.Forall₂ relation (firsts.set index first) (seconds.set index second) := by
  induction related generalizing index with
  | nil => exact .nil
  | cons head tail ih =>
      cases index with
      | zero => exact .cons new tail
      | succ index => exact .cons head (ih index)

theorem forall₂_replicate (new : relation first second) (count : Nat) :
    List.Forall₂ relation (List.replicate count first) (List.replicate count second) := by
  induction count with
  | zero => exact .nil
  | succ count ih => exact .cons new ih

theorem forall₂_assigned (related : List.Forall₂ relation firsts seconds) {fill : α} {fill' : β}
    (filled : relation fill fill') (new : relation first second) (index : Nat) :
    List.Forall₂ relation (assigned firsts fill index first)
      (assigned seconds fill' index second) := by
  rw [assigned, assigned, related.length_eq]
  exact forall₂_set (List.rel_append related (forall₂_replicate filled _)) new index

end Lists

def Stores (runtime : Runtime) (layout : Nat) (word : Word) (value : Option Value) : Prop :=
  ∀ written, value = some written → Holds runtime layout word written

/-- What a call leaves: the flags as they were, and the elements with the one written. -/
structure Leaves (runtime : Runtime) (layout : Nat) (flags : Nat)
    (elements : List (Option Value)) (after : HaxeArray) : Prop where
  flags : after.flags = flags
  agrees : Agrees runtime layout after.slots elements

theorem stores_of_encodes {encoded : Except Fault Word} {stored : Word} {value : Option Value}
    (computes : encoded = .ok stored)
    (encodes : ∀ written, value = some written → Encodes runtime layout encoded written) :
    Stores runtime layout stored value := by
  intro written isWritten
  obtain ⟨stored', computes', holds⟩ := encodes written isWritten
  rw [computes] at computes'
  cases computes'
  exact holds

theorem unwritten (word : Word) : Stores runtime layout word none := by
  intro written isWritten
  cases isWritten

theorem initIfEmpty_recorded (recorded : Recorded array.flags layout) (tag : Int) :
    initIfEmpty array tag = array := by
  have noInit : ¬ (array.slots = [] ∧ storedSlotLayout array.flags = none) := by
    intro both
    rw [recorded.stored] at both
    cases both.2
  exact if_neg noInit

theorem Write.leaves (recorded : Recorded array.flags layout)
    (agrees : Agrees runtime layout array.slots elements) {write : Write}
    (returns : write.exec runtime.toMachine array = .ok after) :
    Leaves runtime layout array.flags
      (write.record elements (write.value runtime array.flags layout)) after := by
  cases write with
  | setTyped index word tag metadata =>
      obtain ⟨stored, encodes, isAfter⟩ := Interp.bind_eq_ok.mp returns
      have stores := stores_of_encodes encodes fun _ => written_encodes recorded
      cases isAfter
      split
      · exact ⟨rfl, forall₂_assigned agrees (unwritten _) stores index⟩
      · exact ⟨rfl, forall₂_assigned agrees (unwritten _) stores index⟩
  | pushTyped word tag metadata =>
      rw [exec, haxeArrayPushTyped, initIfEmpty_recorded recorded] at returns
      obtain ⟨stored, encodes, isAfter⟩ := Interp.bind_eq_ok.mp returns
      have stores := stores_of_encodes encodes fun _ => written_encodes recorded
      cases isAfter
      exact ⟨rfl, List.rel_append agrees (.cons stores .nil)⟩
  | insertTyped index word tag metadata =>
      obtain ⟨stored, encodes, isAfter⟩ := Interp.bind_eq_ok.mp returns
      have stores := stores_of_encodes encodes fun _ => written_encodes recorded
      cases isAfter
      refine ⟨rfl, ?_⟩
      rw [record, ← agrees.length_eq]
      exact forall₂_insertIdx agrees stores _
  | unshiftTyped word tag metadata =>
      obtain ⟨stored, encodes, isAfter⟩ := Interp.bind_eq_ok.mp returns
      have stores := stores_of_encodes encodes fun _ => written_encodes recorded
      cases isAfter
      exact ⟨rfl, .cons stores agrees⟩
  | setErased boxLayout index word =>
      rw [exec, haxeArraySetErased] at returns
      rw [record]
      by_cases isNegative : index < 0
      · rw [if_pos isNegative] at returns
        rw [if_pos isNegative]
        cases returns
        exact ⟨rfl, agrees⟩
      · rw [if_neg isNegative, recorded.stored] at returns
        rw [if_neg isNegative]
        obtain ⟨stored, encodes, isAfter⟩ := Interp.bind_eq_ok.mp returns
        have stores := stores_of_encodes encodes fun _ => writtenErased_encodes
        cases isAfter
        split
        · exact ⟨rfl, forall₂_assigned agrees (unwritten _) stores index.toNat⟩
        · exact ⟨rfl, forall₂_assigned agrees (unwritten _) stores index.toNat⟩

/-- A write comes back whatever the slots hold. -/
def Write.Returns (runtime : Runtime) (flags : Nat) (write : Write) : Prop :=
  ∀ slots, ∃ after, write.exec runtime.toMachine ⟨slots, flags⟩ = .ok after

/-- A write of a value its slots take comes back. -/
theorem Write.returns (recorded : Recorded flags layout) {write : Write}
    (isWritten : (write.value runtime flags layout).isSome) : write.Returns runtime flags := by
  intro slots
  obtain ⟨value, isValue⟩ := Option.isSome_iff_exists.mp isWritten
  cases write with
  | setTyped index word tag metadata =>
      obtain ⟨stored, encodes, -⟩ := written_encodes recorded isValue
      rw [exec, haxeArraySetTyped, encodes]
      exact ⟨_, rfl⟩
  | pushTyped word tag metadata =>
      obtain ⟨stored, encodes, -⟩ := written_encodes recorded isValue
      have noInit : initIfEmpty ⟨slots, flags⟩ tag = ⟨slots, flags⟩ :=
        @initIfEmpty_recorded layout ⟨slots, flags⟩ recorded tag
      rw [exec, haxeArrayPushTyped, noInit, encodes]
      exact ⟨_, rfl⟩
  | insertTyped index word tag metadata =>
      obtain ⟨stored, encodes, -⟩ := written_encodes recorded isValue
      rw [exec, haxeArrayInsertTyped, encodes]
      exact ⟨_, rfl⟩
  | unshiftTyped word tag metadata =>
      obtain ⟨stored, encodes, -⟩ := written_encodes recorded isValue
      rw [exec, haxeArrayUnshiftTyped, encodes]
      exact ⟨_, rfl⟩
  | setErased boxLayout index word =>
      obtain ⟨stored, encodes, -⟩ := writtenErased_encodes isValue
      rw [exec, haxeArraySetErased, recorded.stored]
      by_cases isNegative : index < 0
      · exact ⟨_, if_pos isNegative⟩
      · rw [if_neg isNegative, Option.getD_some]
        dsimp only
        rw [encodes]
        exact ⟨_, rfl⟩

/-- A run whose writes come back ends, with the flags as they were and every element holding
the value last written to it. -/
theorem execAll_leaves (writes : List Write) (recorded : Recorded array.flags layout)
    (agrees : Agrees runtime layout array.slots elements)
    (comeBack : ∀ write ∈ writes, write.Returns runtime array.flags) :
    ∃ after, execAll runtime.toMachine array writes = .ok after ∧
      Leaves runtime layout array.flags
        (recordAll runtime array.flags layout elements writes) after := by
  induction writes generalizing array elements with
  | nil => exact ⟨array, rfl, rfl, agrees⟩
  | cons write rest ih =>
      obtain ⟨next, returns⟩ := comeBack write List.mem_cons_self array.slots
      have leaves := write.leaves recorded agrees returns
      have sameFlags := leaves.flags
      have recorded' : Recorded next.flags layout := sameFlags ▸ recorded
      obtain ⟨after, runs, leaves'⟩ := ih recorded' leaves.agrees
        fun later member => sameFlags ▸ comeBack later (List.mem_cons_of_mem _ member)
      rw [sameFlags] at leaves'
      refine ⟨after, ?_, leaves'⟩
      rw [execAll, returns]
      exact runs

theorem nothing_written (runtime : Runtime) (layout : Nat) (slots : List Word) :
    Agrees runtime layout slots (slots.map fun _ => none) := by
  induction slots with
  | nil => exact .nil
  | cons word rest ih => exact .cons (unwritten word) ih

/-- What every reader of an element gets: the value, converted to what the reader reads. -/
def ReadBack (runtime : Runtime) (array : HaxeArray) (index : Nat) (value : Value) : Prop :=
  (∀ tag result, value.convert (kindOfTag tag) = some result →
    Yields runtime (kindOfTag tag) (haxeArrayGetTyped runtime.toMachine array index tag) result) ∧
  ∀ boxLayout target result, value.convert (kindOfTarget target) = some result →
    Yields runtime (kindOfTarget target)
      (haxeArrayGetErased runtime.toMachine array boxLayout index target) result

/-- Reads through either view agree with the writes through either: whatever was written
between, an element reads as the value last written to it, and the layout stays. -/
theorem views_agree (runtime : Runtime) (array : HaxeArray) (layout : Nat) (writes : List Write)
    (recorded : Recorded array.flags layout)
    (comeBack : ∀ write ∈ writes, (write.value runtime array.flags layout).isSome ∨
      write.Returns runtime array.flags) :
    ∃ after, execAll runtime.toMachine array writes = .ok after ∧ after.flags = array.flags ∧
      ∀ index value,
        (recordAll runtime array.flags layout (array.slots.map fun _ => none) writes)[index]? =
          some (some value) →
        ReadBack runtime after index value := by
  have returns : ∀ write ∈ writes, write.Returns runtime array.flags := by
    intro write member
    cases comeBack write member with
    | inl isWritten => exact write.returns recorded isWritten
    | inr returns => exact returns
  obtain ⟨after, runs, leaves⟩ := execAll_leaves writes recorded
    (nothing_written runtime layout array.slots) returns
  have recorded' : Recorded after.flags layout := leaves.flags ▸ recorded
  refine ⟨after, runs, leaves.flags, ?_⟩
  intro index value isWritten
  constructor
  · intro tag result converts
    exact haxeArrayGetTyped_yields recorded' leaves.agrees isWritten converts
  · intro boxLayout target result converts
    exact haxeArrayGetErased_yields recorded' leaves.agrees isWritten boxLayout converts

/-! ### Recording -/

theorem and_two_pow_eq_zero {flags bit : Nat} (clear : flags / 2 ^ bit % 2 = 0) :
    flags &&& 2 ^ bit = 0 := by
  rw [Nat.and_two_pow, Nat.testBit_eq_decide_div_mod_eq, clear]
  simp

theorem and_two_pow_ne_zero {flags bit : Nat} (set : flags / 2 ^ bit % 2 = 1) :
    flags &&& 2 ^ bit ≠ 0 := by
  rw [Nat.and_two_pow, Nat.testBit_eq_decide_div_mod_eq, set]
  simp

theorem recorded_marked (slots : List Word) (layout : Nat) (fits : layout < 2 ^ 56)
    (known : 2 ≤ layout % 2 ^ 8 ∧ layout % 2 ^ 8 ≤ 9) (plainInt : layout % 2 ^ 8 = 3 → layout = 3)
    (named : layout % 2 ^ 8 = 6 → layout / 2 ^ 8 ≠ 0 → ReferenceType (metadataType layout)) :
    Recorded (haxeArrayMarkSlotLayout ⟨slots, 0⟩ layout).flags layout := by
  by_cases isInt : layout = 3
  · have isFlags : (haxeArrayMarkSlotLayout ⟨slots, 0⟩ layout).flags = 778 := by
      have unboxed : (⟨slots, 0⟩ : HaxeArray).flags &&& haxeArrayBoxedElems = 0 :=
        Nat.zero_and _
      rw [isInt, haxeArrayMarkSlotLayout, if_pos unboxed]
      show 0 ||| (8 ||| 3 * 2 ^ 8 % 2 ^ 64) ||| 2 = 778
      decide
    rw [isFlags, isInt]
    exact ⟨rfl, fun _ => by decide, fun _ => by decide, by decide⟩
  · have isFlags : (haxeArrayMarkSlotLayout ⟨slots, 0⟩ layout).flags = layout * 2 ^ 8 + 8 := by
      have disjoint : layout <<< 8 + 8 = layout <<< 8 ||| 8 :=
        Nat.shiftLeft_add_eq_or_of_lt (by decide) layout
      have small : layout * 2 ^ 8 % 2 ^ 64 = layout * 2 ^ 8 := Nat.mod_eq_of_lt (by omega)
      have unboxed : (⟨slots, 0⟩ : HaxeArray).flags &&& haxeArrayBoxedElems = 0 :=
        Nat.zero_and _
      rw [haxeArrayMarkSlotLayout, if_pos unboxed]
      dsimp only
      rw [if_neg isInt, small, Nat.zero_or, haxeArraySlotLayout, Nat.or_comm]
      rw [Nat.shiftLeft_eq] at disjoint
      exact disjoint.symm
    rw [isFlags]
    have notBoxed : (layout * 2 ^ 8 + 8) &&& haxeArrayBoxedElems = 0 :=
      @and_two_pow_eq_zero _ 2 (by omega)
    have isMarked : (layout * 2 ^ 8 + 8) &&& haxeArraySlotLayout ≠ 0 :=
      @and_two_pow_ne_zero _ 3 (by omega)
    have notIntElems : (layout * 2 ^ 8 + 8) &&& haxeArrayIntElems = 0 :=
      @and_two_pow_eq_zero _ 1 (by omega)
    refine ⟨?_, fun _ => known, ?_, named⟩
    · rw [storedSlotLayout, if_neg (not_not.mpr notBoxed), if_pos isMarked, Nat.shiftRight_eq_div_pow]
      apply congrArg
      omega
    · intro _
      exact ⟨fun set => absurd notIntElems set, fun low => absurd (plainInt low) isInt⟩

/-! ### One run -/

theorem isBoxTag_user {typeId : Nat} (user : 100 < typeId ∧ typeId < 2 ^ 32 - 11) :
    isBoxTag typeId = false := by
  unfold isBoxTag typeNull typeArray typeFunction typeDynamicToken typeClassToken typeEnumToken
  simp
  omega

def plainRuntime : Runtime where
  typeId _ := 0
  padding _ := 1
  second _ := .null
  wrapped object := object
  isClassType id := id == int64ClassId
  enumInfo _ := none
  registeredCell _ := none
  isFatPointer _ := false
  fat_padding _ isFat := by cases isFat
  wrapped_plain _ _ := rfl
  unmarked _ := by decide
  stamped _ boxTag := by cases boxTag
  noInt64 _ := by
    have user := int64ClassId_user
    omega
  classes id isClass := by
    have user := int64ClassId_user
    rw [eq_of_beq isClass]
    exact ⟨user.1, isBoxTag_user user⟩
  int64Class := beq_self_eq_true _
  enums _ isEnum := by cases isEnum
  registered _ _ isCell := by cases isCell

/-- An Int array after an Int is pushed and another set through an erased view of it -/
theorem views_agree_ints :
    ∃ after, execAll plainRuntime.toMachine (haxeArrayMarkSlotLayout ⟨[], 0⟩ 3)
        [.pushTyped (.number 5) 1 0, .setErased none 1 (.box typeFloat .none (.float f64One))] =
          .ok after ∧
      ReadBack plainRuntime after 1 (.int 1) := by
  obtain ⟨after, runs, -, readsBack⟩ := views_agree plainRuntime
    (haxeArrayMarkSlotLayout ⟨[], 0⟩ 3) 3
    [.pushTyped (.number 5) 1 0, .setErased none 1 (.box typeFloat .none (.float f64One))]
    (recorded_marked [] 3 (by decide) (by decide) (fun _ => rfl) (by decide))
    (by
      intro write member
      apply Or.inl
      rcases List.mem_cons.mp member with rfl | rest
      · rfl
      · rw [List.mem_singleton.mp rest]
        rfl)
  exact ⟨after, runs, readsBack 1 (.int 1) rfl⟩

/-- A Float pushed to an Int array is stored as an Int: 2.5 reads back as 2.0. -/
theorem float_in_int_array :
    (do
      let after ← execAll plainRuntime.toMachine (haxeArrayMarkSlotLayout ⟨[], 0⟩ 3)
        [.pushTyped (.number 0x4004000000000000) 4 0]
      haxeArrayGetTyped plainRuntime.toMachine after 0 4) = .ok (.number 0x4000000000000000) ∧
    ¬ ReadsAs plainRuntime .float (.number 0x4000000000000000) (.float 0x4004000000000000) := by
  constructor
  · rfl
  · intro reads
    have same : some (Value.float 0x4000000000000000) = some (Value.float 0x4004000000000000) :=
      reads
    exact absurd same (by decide)

end Rayzor.Views
