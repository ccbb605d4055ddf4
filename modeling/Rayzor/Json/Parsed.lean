import Rayzor.Library.Outcome
import Rayzor.Json.Members
import Rayzor.Json.Numbers
import Rayzor.Json.Strings

/-!
Contract: what the parser makes of a text of the grammar.
-/

namespace Rayzor.Json

open Library

theorem IsSpace.nil : IsSpace [] := fun _ isIn => absurd isIn List.not_mem_nil

theorem isSpaceByte_ascii : ∀ {b : UInt8}, isSpaceByte b = true → b.toNat < 128 := by
  intro b isSpace
  rw [isSpaceByte, Bool.or_eq_true, Bool.or_eq_true, Bool.or_eq_true, beq_iff_eq, beq_iff_eq,
    beq_iff_eq, beq_iff_eq] at isSpace
  rcases isSpace with ((rfl | rfl) | rfl) | rfl <;> decide

theorem IsSpace.encoded {space : Bytes} (isSpace : IsSpace space) : Encoded space :=
  encoded_of_ascii fun b isIn => isSpaceByte_ascii (isSpace b isIn)

theorem IsInt.ascii {text : Bytes} {value : BitVec 64} (isInt : IsInt text value) :
    ∀ b ∈ text, b.toNat < 128 := by
  have digits : ∀ {digits : List Nat}, IsDigits digits →
      ∀ b ∈ digits.map digitByte, b.toNat < 128 := by
    intro digits isDigits b isIn
    obtain ⟨digit, isDigit, rfl⟩ := List.mem_map.mp isIn
    have small := isDigits.small digit isDigit
    rw [digitByte_toNat small]
    omega
  cases isInt with
  | positive isDigits _ => exact digits isDigits
  | negative isDigits _ =>
      intro b isIn
      rcases List.mem_cons.mp isIn with rfl | isDigit
      · decide
      · exact digits isDigits b isDigit

theorem IsString.quoted_encoded {text : Bytes} {chars : List Char} (isString : IsString text chars) :
    Encoded (quoted text) :=
  (isString.encoded.append (encoded_ascii (by decide))).cons (by decide)

theorem word_encoded {chars : List Char} (ascii : ∀ c ∈ chars, c.toNat < 128) :
    Encoded (word chars) := by
  refine encoded_of_ascii fun b isIn => ?_
  obtain ⟨c, isChar, rfl⟩ := List.mem_map.mp isIn
  have small := ascii c isChar
  rw [byte, UInt8.toNat_ofNat']
  omega

mutual

theorem IsValue.encoded : ∀ {text : Bytes} {value : Json}, IsValue text value → Encoded text
  | _, _, .nullWord => word_encoded (by simp)
  | _, _, .trueWord => word_encoded (by simp)
  | _, _, .falseWord => word_encoded (by simp)
  | _, _, .int isInt => encoded_of_ascii isInt.ascii
  | _, _, .string isString => isString.quoted_encoded
  | _, _, .emptyArray isSpace =>
      (isSpace.encoded.append (encoded_ascii (by decide))).cons (by decide)
  | _, _, .array elements =>
      ((IsElements.encoded elements).append (encoded_ascii (by decide))).cons (by decide)
  | _, _, .emptyObject isSpace =>
      (isSpace.encoded.append (encoded_ascii (by decide))).cons (by decide)
  | _, _, .object members _ =>
      ((IsMembers.encoded members).append (encoded_ascii (by decide))).cons (by decide)

theorem IsElements.encoded : ∀ {text : Bytes} {values : List Json}, IsElements text values →
    Encoded text
  | _, _, .last before value after =>
      before.encoded.append ((IsValue.encoded value).append after.encoded)
  | _, _, .more before value after elements =>
      before.encoded.append ((IsValue.encoded value).append
        (after.encoded.append ((IsElements.encoded elements).cons (by decide))))

theorem IsMembers.encoded : ∀ {text : Bytes} {members : List (List Char × Json)},
    IsMembers text members → Encoded text
  | _, _, .last before key behind middle value after =>
      before.encoded.append (key.quoted_encoded.append (behind.encoded.append
        ((middle.encoded.append ((IsValue.encoded value).append after.encoded)).cons (by decide))))
  | _, _, .more before key behind middle value after members =>
      before.encoded.append (key.quoted_encoded.append (behind.encoded.append
        ((middle.encoded.append ((IsValue.encoded value).append (after.encoded.append
          ((IsMembers.encoded members).cons (by decide))))).cons (by decide))))

end

/-- The first byte of a value: neither white space nor the end of a container. -/
theorem IsValue.start {text : Bytes} {value : Json} (isValue : IsValue text value) :
    ∃ b rest, text = b :: rest ∧ isSpaceByte b = false ∧ b ≠ byte ']' := by
  cases isValue with
  | nullWord => exact ⟨_, _, rfl, by decide, by decide⟩
  | trueWord => exact ⟨_, _, rfl, by decide, by decide⟩
  | falseWord => exact ⟨_, _, rfl, by decide, by decide⟩
  | int isInt =>
      have digits : ∀ digit < 10, isSpaceByte (digitByte digit) = false ∧
          digitByte digit ≠ byte ']' := by decide
      cases isInt with
      | positive isDigits _ =>
          obtain ⟨digit, more, rfl⟩ := List.exists_cons_of_ne_nil isDigits.nonempty
          exact ⟨_, _, rfl, digits digit (isDigits.small digit List.mem_cons_self)⟩
      | negative _ _ => exact ⟨_, _, rfl, by decide, by decide⟩
  | string _ => exact ⟨_, _, rfl, by decide, by decide⟩
  | emptyArray _ => exact ⟨_, _, rfl, by decide, by decide⟩
  | array _ => exact ⟨_, _, rfl, by decide, by decide⟩
  | emptyObject _ => exact ⟨_, _, rfl, by decide, by decide⟩
  | object _ _ => exact ⟨_, _, rfl, by decide, by decide⟩

theorem skipWhitespace_space {space : Bytes} (isSpace : IsSpace space) (rest : Bytes) :
    skipWhitespace (space ++ rest) = skipWhitespace rest :=
  List.dropWhile_append_of_pos isSpace

theorem skipWhitespace_cons {b : UInt8} (isSpace : isSpaceByte b = false) (rest : Bytes) :
    skipWhitespace (b :: rest) = b :: rest :=
  List.dropWhile_cons_of_neg (by rw [isSpace]; exact Bool.false_ne_true)

/-- What may follow a value: white space, or what ends or separates values. -/
def EndsValue (rest : Bytes) : Prop :=
  ∀ b, rest.head? = some b →
    isSpaceByte b = true ∨ b = byte ',' ∨ b = byte ']' ∨ b = byte '}'

theorem EndsValue.number {rest : Bytes} (ends : EndsValue rest) : EndsNumber rest := by
  intro b isHead
  rcases ends b isHead with isSpace | rfl | rfl | rfl
  · rw [isSpaceByte, Bool.or_eq_true, Bool.or_eq_true, Bool.or_eq_true, beq_iff_eq, beq_iff_eq,
      beq_iff_eq, beq_iff_eq] at isSpace
    rcases isSpace with ((rfl | rfl) | rfl) | rfl <;> decide
  all_goals decide

theorem endsValue_mark {mark : UInt8} (isMark : mark = byte ',' ∨ mark = byte ']' ∨ mark = byte '}')
    {space : Bytes} (isSpace : IsSpace space) (rest : Bytes) :
    EndsValue (space ++ mark :: rest) := by
  intro b isHead
  cases space with
  | nil =>
      rw [List.nil_append, List.head?_cons, Option.some.injEq] at isHead
      exact Or.inr (isHead ▸ isMark)
  | cons first space =>
      rw [List.cons_append, List.head?_cons, Option.some.injEq] at isHead
      exact Or.inl (isHead ▸ isSpace first List.mem_cons_self)

theorem endsValue_space {space : Bytes} (isSpace : IsSpace space) : EndsValue space := by
  intro b isHead
  exact Or.inl (isSpace b (List.mem_of_head? isHead))

theorem skipWhitespace_mark {mark : UInt8}
    (isMark : mark = byte ',' ∨ mark = byte ']' ∨ mark = byte '}' ∨ mark = byte ':')
    {space : Bytes} (isSpace : IsSpace space) (rest : Bytes) :
    skipWhitespace (space ++ mark :: rest) = mark :: rest := by
  rw [skipWhitespace_space isSpace]
  rcases isMark with rfl | rfl | rfl | rfl <;> exact skipWhitespace_cons (by decide) rest

theorem isValid_mark {mark : UInt8} (ascii : mark.toNat < 128) {bytes rest : Bytes}
    (encoded : Encoded bytes) (valid : Utf8.isValid rest = true) :
    Utf8.isValid (bytes ++ mark :: rest) = true := by
  rw [encoded.isValid_append, ← List.singleton_append, (encoded_ascii ascii).isValid_append, valid]

section

variable (platform : Platform) (size : Nat)

/-- The outcome of parsing a value with the rest behind it: a box that holds the value
exactly when it fits, and a failure only when it does not. -/
def Reads (value : Json) (rest : Bytes) : Except Fault (Read Dynamic) → Prop :=
  Yields (fun _ => ¬ Fits platform.overflowChecks value) fun read =>
    read.2 = rest ∧ (Holds read.1 value ↔ Fits platform.overflowChecks value)

/-- The outcome of the loop over elements, with the slots before. -/
def ReadsElements (slots : List Dynamic) (values : List Json) (rest : Bytes) :
    Except Fault (Read Dynamic) → Prop :=
  Yields (fun _ => ∃ value ∈ values, ¬ Fits platform.overflowChecks value) fun read =>
    read.2 = rest ∧ ∃ more, read.1 = .array (slots ++ more) ∧
      List.Forall₂ (fun slot value => Holds slot value ↔ Fits platform.overflowChecks value)
        more values

/-- The outcome of the loop over members, with the fields before. -/
def ReadsMembers (fields : Fields) (members : List (List Char × Json)) (rest : Bytes) :
    Except Fault (Read Dynamic) → Prop :=
  Yields (fun _ => ∃ member ∈ members, ¬ Fits platform.overflowChecks member.2) fun read =>
    read.2 = rest ∧ ∃ entries, read.1 = .anon false (setFields entries fields) ∧
      List.Forall₂ (Sets platform.overflowChecks) entries members

variable {platform size}

theorem holds_array_iff {checks : Bool} {slots : List Dynamic} {values : List Json}
    (each : List.Forall₂ (fun slot value => Holds slot value ↔ Fits checks value) slots values) :
    Holds (.array slots) (.array values) ↔ Fits checks (.array values) := by
  constructor
  · intro holds
    cases holds with
    | array all =>
        refine Fits.array ?_
        induction each with
        | nil => exact fun value isIn => absurd isIn List.not_mem_nil
        | cons first _ ih =>
            cases all with
            | cons holdsFirst later =>
                intro value isIn
                rcases List.mem_cons.mp isIn with rfl | isLater
                · exact first.mp holdsFirst
                · exact ih later value isLater
  · intro fits
    cases fits with
    | array all =>
        refine Holds.array ?_
        induction each with
        | nil => exact List.Forall₂.nil
        | cons first _ ih =>
            exact List.Forall₂.cons (first.mpr (all _ List.mem_cons_self))
              (ih fun value isIn => all value (List.mem_cons_of_mem _ isIn))

theorem not_fits_array {checks : Bool} {values : List Json}
    (unfit : ∃ value ∈ values, ¬ Fits checks value) : ¬ Fits checks (.array values) := by
  obtain ⟨value, isIn, unfit⟩ := unfit
  intro fits
  cases fits with
  | array all => exact unfit (all value isIn)

theorem not_fits_object {checks : Bool} {listed members : List (List Char × Json)}
    (permuted : listed.Perm members) (unfit : ∃ member ∈ listed, ¬ Fits checks member.2) :
    ¬ Fits checks (.object members) := by
  obtain ⟨member, isIn, unfit⟩ := unfit
  intro fits
  cases fits with
  | object _ all => exact unfit (all member (permuted.mem_iff.mp isIn))

theorem parseValue_start {before : Bytes} (isSpace : IsSpace before) {c : UInt8}
    (visible : isSpaceByte c = false) (fuel : Nat) (more : Bytes) :
    parseValue platform size (fuel + 1) (before ++ c :: more) =
      if c = byte '{' then parseObject platform size fuel more
      else if c = byte '[' then parseArray platform size fuel more
      else if c = quoteByte then .ok (parseStringValue more)
      else if c = byte 't' then .ok (parseTrue (c :: more))
      else if c = byte 'f' then .ok (parseFalse (c :: more))
      else if c = byte 'n' then .ok (parseNull (c :: more))
      else if c = byte '-' ∨ isDigitByte c then parseNumber platform (c :: more)
      else .error (invalidChar size c (c :: more)) := by
  rw [parseValue, skipWhitespace_space isSpace, skipWhitespace_cons visible]

theorem parseWord_eq (chars : List Char) (value : Dynamic) (rest : Bytes) :
    parseWord chars value (word chars ++ rest) = (value, rest) := by
  have height : (word chars).length = chars.length := List.length_map _
  rw [parseWord, ← height, List.take_left, List.drop_left]
  exact if_pos rfl

theorem reads_int {text : Bytes} {value : BitVec 64} (isInt : IsInt text value) {before : Bytes}
    (isSpace : IsSpace before) {rest : Bytes} (ends : EndsValue rest) (fuel : Nat) :
    Reads platform (.int value) rest
      (parseValue platform size (fuel + 1) (before ++ (text ++ rest))) := by
  have start : ∃ c more, text = c :: more ∧ isSpaceByte c = false ∧ c ≠ byte '{' ∧ c ≠ byte '[' ∧
      c ≠ quoteByte ∧ c ≠ byte 't' ∧ c ≠ byte 'f' ∧ c ≠ byte 'n' ∧
      (c = byte '-' ∨ isDigitByte c = true) := by
    have digits : ∀ digit < 10, isSpaceByte (digitByte digit) = false ∧
        digitByte digit ≠ byte '{' ∧ digitByte digit ≠ byte '[' ∧ digitByte digit ≠ quoteByte ∧
        digitByte digit ≠ byte 't' ∧ digitByte digit ≠ byte 'f' ∧ digitByte digit ≠ byte 'n' ∧
        (digitByte digit = byte '-' ∨ isDigitByte (digitByte digit) = true) := by decide
    cases isInt with
    | positive isDigits _ =>
        obtain ⟨digit, more, rfl⟩ := List.exists_cons_of_ne_nil isDigits.nonempty
        exact ⟨_, _, rfl, digits digit (isDigits.small digit List.mem_cons_self)⟩
    | negative _ _ => exact ⟨_, _, rfl, by decide⟩
  have number := parseNumber_eq platform isInt ends.number
  obtain ⟨c, more, rfl, visible, one, two, three, four, five, six, isNumber⟩ := start
  rw [List.cons_append] at number ⊢
  rw [parseValue_start isSpace visible, if_neg one, if_neg two, if_neg three, if_neg four,
    if_neg five, if_neg six, if_pos isNumber, number]
  split_ifs with overflows
  · refine Yields.error fun fits => ?_
    cases fits with
    | int small => exact small overflows.1 overflows.2
  · refine Yields.ok ⟨rfl, iff_of_true (Holds.int value) (Fits.int ?_)⟩
    exact fun checks same => overflows ⟨checks, same⟩

theorem reads_string {text : Bytes} {chars : List Char} (isString : IsString text chars)
    {before : Bytes} (isSpace : IsSpace before) {rest : Bytes} (valid : Utf8.isValid rest = true)
    (fuel : Nat) :
    Reads platform (.string chars) rest
      (parseValue platform size (fuel + 1) (before ++ (quoted text ++ rest))) := by
  have shape : quoted text ++ rest = quoteByte :: (text ++ quoteByte :: rest) := by
    rw [quoted, List.cons_append, List.append_assoc]
    rfl
  rw [shape, parseValue_start isSpace (by decide), if_neg (by decide), if_neg (by decide),
    if_pos rfl, parseStringValue, parseString_eq isString valid]
  exact Yields.ok ⟨rfl, iff_of_true (Holds.string chars) (Fits.string chars)⟩

theorem reads_word {chars : List Char} {c : Char} {more : List Char} (shape : chars = c :: more)
    {value : Dynamic} {json : Json} (holds : Holds value json)
    (fits : Fits platform.overflowChecks json) (rest : Bytes) :
    Reads platform json rest (.ok (parseWord chars value (byte c :: (more.map byte ++ rest)))) := by
  have whole : byte c :: (more.map byte ++ rest) = word chars ++ rest := by rw [shape]; rfl
  rw [whole, parseWord_eq]
  exact Yields.ok ⟨rfl, iff_of_true holds fits⟩

theorem IsElements.trim {text : Bytes} {values : List Json} (elements : IsElements text values)
    (rest : Bytes) : ∃ b more, skipWhitespace (text ++ rest) = b :: (more ++ rest) ∧ b ≠ byte ']' ∧
      IsElements (b :: more) values ∧ more.length < text.length := by
  cases elements with
  | @last before inner after value isBefore isValue isAfter =>
      obtain ⟨b, tail, rfl, visible, notEnd⟩ := isValue.start
      refine ⟨b, tail ++ after, ?_, notEnd, IsElements.last IsSpace.nil isValue isAfter, ?_⟩
      · rw [List.append_assoc, skipWhitespace_space isBefore, List.cons_append, List.cons_append,
          skipWhitespace_cons visible]
      · simp only [List.length_append, List.length_cons]
        omega
  | @more before inner after later value values isBefore isValue isAfter isLater =>
      obtain ⟨b, tail, rfl, visible, notEnd⟩ := isValue.start
      refine ⟨b, tail ++ (after ++ byte ',' :: later), ?_, notEnd,
        IsElements.more IsSpace.nil isValue isAfter isLater, ?_⟩
      · rw [List.append_assoc, skipWhitespace_space isBefore, List.cons_append, List.cons_append,
          skipWhitespace_cons visible]
      · simp only [List.length_append, List.length_cons]
        omega

theorem IsMembers.trim {text : Bytes} {members : List (List Char × Json)}
    (isMembers : IsMembers text members) (rest : Bytes) :
    ∃ more, skipWhitespace (text ++ rest) = quoteByte :: (more ++ rest) ∧
      IsMembers (quoteByte :: more) members ∧ more.length < text.length := by
  cases isMembers with
  | @last before key behind middle inner after name value isBefore isKey isBehind isMiddle isValue
      isAfter =>
      refine ⟨key ++ [quoteByte] ++ (behind ++ byte ':' :: (middle ++ (inner ++ after))), ?_,
        IsMembers.last IsSpace.nil isKey isBehind isMiddle isValue isAfter, ?_⟩
      · rw [List.append_assoc, skipWhitespace_space isBefore]
        exact skipWhitespace_cons (by decide) _
      · simp only [quoted, List.length_append, List.length_cons]
        omega
  | @more before key behind middle inner after later name value members isBefore isKey isBehind
      isMiddle isValue isAfter isLater =>
      refine ⟨key ++ [quoteByte] ++ (behind ++ byte ':' :: (middle ++ (inner ++
        (after ++ byte ',' :: later)))), ?_,
        IsMembers.more IsSpace.nil isKey isBehind isMiddle isValue isAfter isLater, ?_⟩
      · rw [List.append_assoc, skipWhitespace_space isBefore]
        exact skipWhitespace_cons (by decide) _
      · simp only [quoted, List.length_append, List.length_cons]
        omega

theorem parseMembers_start {before key behind middle : Bytes} {name : List Char}
    (isBefore : IsSpace before) (isKey : IsString key name) (isBehind : IsSpace behind)
    (fuel : Nat) (fields : Fields) (rest : Bytes) (valid : Utf8.isValid (middle ++ rest) = true) :
    parseMembers platform size (fuel + 1) fields
        (before ++ (quoted key ++ (behind ++ byte ':' :: (middle ++ rest)))) =
      (do
        let (value, behind) ← parseValue platform size fuel (middle ++ rest)
        let fields := setField fields (Utf8.encode name) value
        match skipWhitespace behind with
        | [] => .ok (.anon false fields, [])
        | mark :: next =>
            if mark = byte ',' then parseMembers platform size fuel fields next
            else if mark = byte '}' then .ok (.anon false fields, next)
            else .ok (.anon false fields, mark :: next)) := by
  have shape : quoted key ++ (behind ++ byte ':' :: (middle ++ rest)) =
      quoteByte :: (key ++ quoteByte :: (behind ++ byte ':' :: (middle ++ rest))) := by
    rw [quoted, List.cons_append, List.append_assoc]
    rfl
  have validBehind : Utf8.isValid (behind ++ byte ':' :: (middle ++ rest)) = true :=
    isValid_mark (by decide) isBehind.encoded valid
  rw [shape, parseMembers, skipWhitespace_space isBefore, skipWhitespace_cons (by decide)]
  dsimp only
  rw [if_neg (by decide), parseStringKey, parseString_eq isKey validBehind,
    skipWhitespace_mark (Or.inr (Or.inr (Or.inr rfl))) isBehind]
  exact if_neg (by decide)

mutual

/-- Parsing a text of the grammar keeps its value exactly when the value fits. -/
theorem parseValue_spec : ∀ (fuel : Nat) {text before : Bytes} {value : Json} (rest : Bytes),
    IsValue text value → Distinct value → 3 * text.length ≤ fuel → IsSpace before →
    EndsValue rest → Utf8.isValid rest = true →
    Reads platform value rest (parseValue platform size fuel (before ++ (text ++ rest)))
  | 0, text, _, _, _, isValue, _, short, _, _, _ => by
      obtain ⟨b, more, rfl, _⟩ := isValue.start
      exact absurd short (by rw [List.length_cons]; omega)
  | fuel + 1, _, _, _, rest, isValue, distinct, enough, isBefore, ends, valid => by
      cases isValue with
      | nullWord =>
          have start := @parseValue_start platform size _ isBefore (byte 'n') (by decide) fuel
            (['u', 'l', 'l'].map byte ++ rest)
          rw [if_neg (by decide), if_neg (by decide), if_neg (by decide), if_neg (by decide),
            if_neg (by decide), if_pos rfl] at start
          exact start.symm ▸ reads_word rfl Holds.null Fits.null rest
      | trueWord =>
          have start := @parseValue_start platform size _ isBefore (byte 't') (by decide) fuel
            (['r', 'u', 'e'].map byte ++ rest)
          rw [if_neg (by decide), if_neg (by decide), if_neg (by decide), if_pos rfl] at start
          exact start.symm ▸ reads_word rfl (Holds.bool true) (Fits.bool true) rest
      | falseWord =>
          have start := @parseValue_start platform size _ isBefore (byte 'f') (by decide) fuel
            (['a', 'l', 's', 'e'].map byte ++ rest)
          rw [if_neg (by decide), if_neg (by decide), if_neg (by decide), if_neg (by decide),
            if_pos rfl] at start
          exact start.symm ▸ reads_word rfl (Holds.bool false) (Fits.bool false) rest
      | int isInt => exact reads_int isInt isBefore ends fuel
      | string isString => exact reads_string isString isBefore valid fuel
      | @emptyArray space isSpace =>
          obtain ⟨fuel, rfl⟩ : ∃ smaller, fuel = smaller + 1 := ⟨fuel - 1, by
            simp only [List.length_cons, List.length_append] at enough; omega⟩
          have isNil : Holds (.array []) (.array []) := Holds.array List.Forall₂.nil
          have fits : Fits platform.overflowChecks (.array []) :=
            Fits.array fun value isIn => absurd isIn List.not_mem_nil
          rw [List.cons_append, parseValue_start isBefore (by decide), if_neg (by decide),
            if_pos rfl, List.append_assoc, parseArray, List.singleton_append,
            skipWhitespace_mark (Or.inr (Or.inl rfl)) isSpace]
          dsimp only
          rw [if_pos rfl]
          exact Yields.ok ⟨rfl, iff_of_true isNil fits⟩
      | @array inner values elements =>
          obtain ⟨fuel, rfl⟩ : ∃ smaller, fuel = smaller + 1 := ⟨fuel - 1, by
            simp only [List.length_cons, List.length_append] at enough; omega⟩
          obtain ⟨b, more, trimmed, notEnd, isTrimmed, shorter⟩ :=
            elements.trim (byte ']' :: rest)
          have each : ∀ value ∈ values, Distinct value := by
            cases distinct with
            | array each => exact each
          have small : 3 * (b :: more).length + 1 ≤ fuel := by
            simp only [List.length_cons, List.length_append, List.length_nil] at enough ⊢
            omega
          have loop := parseElements_spec fuel [] rest isTrimmed each small valid
          rw [List.cons_append, parseValue_start isBefore (by decide), if_neg (by decide),
            if_pos rfl, List.append_assoc, parseArray, List.singleton_append, trimmed]
          dsimp only
          rw [if_neg notEnd]
          refine (loop.weaken fun _ => not_fits_array).mono fun read isRead => ?_
          obtain ⟨isRest, more, isArray, each⟩ := isRead
          rw [isArray]
          exact ⟨isRest, holds_array_iff each⟩
      | @emptyObject space isSpace =>
          obtain ⟨fuel, rfl⟩ : ∃ smaller, fuel = smaller + 1 := ⟨fuel - 1, by
            simp only [List.length_cons, List.length_append] at enough; omega⟩
          have isNil : Holds (.anon false []) (.object []) ↔
              Fits platform.overflowChecks (.object []) :=
            holds_setFields_iff List.Forall₂.nil (List.Perm.refl []) List.nodup_nil
          rw [List.cons_append, parseValue_start isBefore (by decide), if_pos rfl,
            List.append_assoc, parseObject, List.singleton_append,
            skipWhitespace_mark (Or.inr (Or.inr (Or.inl rfl))) isSpace]
          dsimp only
          rw [if_pos rfl]
          exact Yields.ok ⟨rfl, isNil⟩
      | @object inner listed members isMembers permuted =>
          obtain ⟨fuel, rfl⟩ : ∃ smaller, fuel = smaller + 1 := ⟨fuel - 1, by
            simp only [List.length_cons, List.length_append] at enough; omega⟩
          obtain ⟨more, trimmed, isTrimmed, shorter⟩ := isMembers.trim (byte '}' :: rest)
          obtain ⟨names, each⟩ : (members.map Prod.fst).Nodup ∧
              ∀ member ∈ members, Distinct member.2 := by
            cases distinct with
            | object names each => exact ⟨names, each⟩
          have small : 3 * (quoteByte :: more).length + 1 ≤ fuel := by
            simp only [List.length_cons, List.length_append, List.length_nil] at enough ⊢
            omega
          have loop := parseMembers_spec fuel [] rest isTrimmed
            (fun member isIn => each member (permuted.mem_iff.mp isIn)) small valid
          rw [List.cons_append, parseValue_start isBefore (by decide), if_pos rfl,
            List.append_assoc, parseObject, List.singleton_append, trimmed]
          dsimp only
          rw [if_neg (by decide)]
          refine (loop.weaken fun _ => not_fits_object permuted).mono fun read isRead => ?_
          obtain ⟨isRest, entries, isObject, sets⟩ := isRead
          rw [isObject]
          exact ⟨isRest, holds_setFields_iff sets permuted names⟩

theorem parseElements_spec : ∀ (fuel : Nat) (slots : List Dynamic) {text : Bytes}
    {values : List Json} (rest : Bytes), IsElements text values →
    (∀ value ∈ values, Distinct value) → 3 * text.length + 1 ≤ fuel → Utf8.isValid rest = true →
    ReadsElements platform slots values rest
      (parseElements platform size fuel slots (text ++ byte ']' :: rest))
  | 0, _, _, _, _, _, _, short, _ => absurd short (by omega)
  | fuel + 1, slots, _, _, rest, elements, distinct, enough, valid => by
      cases elements with
      | @last before inner after value isBefore isValue isAfter =>
          have small : 3 * inner.length ≤ fuel := by
            simp only [List.length_append] at enough
            omega
          have first := parseValue_spec fuel (after ++ byte ']' :: rest) isValue
            (distinct value List.mem_cons_self) small isBefore
            (endsValue_mark (Or.inr (Or.inl rfl)) isAfter rest)
            (isValid_mark (by decide) isAfter.encoded valid)
          rw [List.append_assoc, List.append_assoc, parseElements]
          refine Yields.bind (first.weaken fun _ unfit => ⟨value, List.mem_cons_self, unfit⟩) ?_
          rintro ⟨slot, behind⟩ ⟨isBehind, holds⟩
          obtain rfl : behind = after ++ byte ']' :: rest := isBehind
          dsimp only
          rw [skipWhitespace_mark (Or.inr (Or.inl rfl)) isAfter]
          dsimp only
          rw [if_neg (by decide), if_pos rfl]
          exact Yields.ok ⟨rfl, [slot], rfl, List.Forall₂.cons holds List.Forall₂.nil⟩
      | @more before inner after later value values isBefore isValue isAfter isLater =>
          have small : 3 * inner.length ≤ fuel ∧ 3 * later.length + 1 ≤ fuel := by
            simp only [List.length_append, List.length_cons] at enough
            omega
          have validLater : Utf8.isValid (later ++ byte ']' :: rest) = true :=
            isValid_mark (by decide) isLater.encoded valid
          have first := parseValue_spec fuel (after ++ byte ',' :: (later ++ byte ']' :: rest))
            isValue (distinct value List.mem_cons_self) small.1 isBefore
            (endsValue_mark (Or.inl rfl) isAfter _)
            (isValid_mark (by decide) isAfter.encoded validLater)
          rw [List.append_assoc, List.append_assoc, List.append_assoc, List.cons_append,
            parseElements]
          refine Yields.bind (first.weaken fun _ unfit => ⟨value, List.mem_cons_self, unfit⟩) ?_
          rintro ⟨slot, behind⟩ ⟨isBehind, holds⟩
          obtain rfl : behind = after ++ byte ',' :: (later ++ byte ']' :: rest) := isBehind
          dsimp only
          rw [skipWhitespace_mark (Or.inl rfl) isAfter]
          dsimp only
          rw [if_pos rfl]
          have loop := parseElements_spec fuel (slots ++ [slot]) rest isLater
            (fun value isIn => distinct value (List.mem_cons_of_mem _ isIn)) small.2 valid
          refine (loop.weaken fun _ unfit => ?_).mono fun read isRead => ?_
          · obtain ⟨value, isIn, unfit⟩ := unfit
            exact ⟨value, List.mem_cons_of_mem _ isIn, unfit⟩
          · obtain ⟨isRest, more, isArray, each⟩ := isRead
            rw [List.append_assoc] at isArray
            exact ⟨isRest, slot :: more, isArray, List.Forall₂.cons holds each⟩

theorem parseMembers_spec : ∀ (fuel : Nat) (fields : Fields) {text : Bytes}
    {members : List (List Char × Json)} (rest : Bytes), IsMembers text members →
    (∀ member ∈ members, Distinct member.2) → 3 * text.length + 1 ≤ fuel →
    Utf8.isValid rest = true →
    ReadsMembers platform fields members rest
      (parseMembers platform size fuel fields (text ++ byte '}' :: rest))
  | 0, _, _, _, _, _, _, short, _ => absurd short (by omega)
  | fuel + 1, fields, _, _, rest, isMembers, distinct, enough, valid => by
      cases isMembers with
      | @last before key behind middle inner after name value isBefore isKey isBehind isMiddle
          isValue isAfter =>
          have small : 3 * inner.length ≤ fuel := by
            simp only [List.length_append, List.length_cons] at enough
            omega
          have validAfter : Utf8.isValid (after ++ byte '}' :: rest) = true :=
            isValid_mark (by decide) isAfter.encoded valid
          have validMiddle : Utf8.isValid (middle ++ (inner ++ (after ++ byte '}' :: rest))) =
              true := by
            rw [isMiddle.encoded.isValid_append, isValue.encoded.isValid_append, validAfter]
          have first := parseValue_spec fuel (after ++ byte '}' :: rest) isValue
            (distinct (name, value) List.mem_cons_self) small isMiddle
            (endsValue_mark (Or.inr (Or.inr rfl)) isAfter rest) validAfter
          simp only [List.append_assoc, List.cons_append]
          rw [parseMembers_start isBefore isKey isBehind fuel fields _ validMiddle]
          refine Yields.bind
            (first.weaken fun _ unfit => ⟨(name, value), List.mem_cons_self, unfit⟩) ?_
          rintro ⟨slot, left⟩ ⟨isLeft, holds⟩
          obtain rfl : left = after ++ byte '}' :: rest := isLeft
          dsimp only
          rw [skipWhitespace_mark (Or.inr (Or.inr (Or.inl rfl))) isAfter]
          dsimp only
          rw [if_neg (by decide), if_pos rfl]
          exact Yields.ok ⟨rfl, [(Utf8.encode name, slot)], rfl,
            List.Forall₂.cons ⟨rfl, holds⟩ List.Forall₂.nil⟩
      | @more before key behind middle inner after later name value members isBefore isKey isBehind
          isMiddle isValue isAfter isLater =>
          have small : 3 * inner.length ≤ fuel ∧ 3 * later.length + 1 ≤ fuel := by
            simp only [List.length_append, List.length_cons] at enough
            omega
          have validLater : Utf8.isValid (later ++ byte '}' :: rest) = true :=
            isValid_mark (by decide) isLater.encoded valid
          have validAfter : Utf8.isValid (after ++ byte ',' :: (later ++ byte '}' :: rest)) =
              true := isValid_mark (by decide) isAfter.encoded validLater
          have validMiddle : Utf8.isValid
              (middle ++ (inner ++ (after ++ byte ',' :: (later ++ byte '}' :: rest)))) = true := by
            rw [isMiddle.encoded.isValid_append, isValue.encoded.isValid_append, validAfter]
          have first := parseValue_spec fuel (after ++ byte ',' :: (later ++ byte '}' :: rest))
            isValue (distinct (name, value) List.mem_cons_self) small.1 isMiddle
            (endsValue_mark (Or.inl rfl) isAfter _) validAfter
          simp only [List.append_assoc, List.cons_append]
          rw [parseMembers_start isBefore isKey isBehind fuel fields _ validMiddle]
          refine Yields.bind
            (first.weaken fun _ unfit => ⟨(name, value), List.mem_cons_self, unfit⟩) ?_
          rintro ⟨slot, left⟩ ⟨isLeft, holds⟩
          obtain rfl : left = after ++ byte ',' :: (later ++ byte '}' :: rest) := isLeft
          dsimp only
          rw [skipWhitespace_mark (Or.inl rfl) isAfter]
          dsimp only
          rw [if_pos rfl]
          have loop := parseMembers_spec fuel (setField fields (Utf8.encode name) slot) rest isLater
            (fun member isIn => distinct member (List.mem_cons_of_mem _ isIn)) small.2 valid
          refine (loop.weaken fun _ unfit => ?_).mono fun read isRead => ?_
          · obtain ⟨member, isIn, unfit⟩ := unfit
            exact ⟨member, List.mem_cons_of_mem _ isIn, unfit⟩
          · obtain ⟨isRest, entries, isObject, sets⟩ := isRead
            exact ⟨isRest, (Utf8.encode name, slot) :: entries, isObject,
              List.Forall₂.cons ⟨rfl, holds⟩ sets⟩

end

theorem haxeJsonParse_spec (platform : Platform) {text : Bytes} {value : Json}
    (isText : IsText text value) (distinct : Distinct value) :
    Yields (fun _ => ¬ Fits platform.overflowChecks value)
      (fun result => Holds result value ↔ Fits platform.overflowChecks value)
      (haxeJsonParse platform text) := by
  obtain ⟨before, inner, after, rfl, isBefore, isValue, isAfter⟩ := isText
  have nonempty : before ++ (inner ++ after) ≠ [] := by
    obtain ⟨b, more, rfl, _⟩ := isValue.start
    simp
  have small : 3 * inner.length ≤ enoughFuel (before ++ (inner ++ after)) := by
    simp only [enoughFuel, List.length_append]
    omega
  have valid : Utf8.isValid after = true := by
    have whole := isAfter.encoded.isValid_append []
    rw [List.append_nil] at whole
    rw [whole, Utf8.isValid]
  have first := @parseValue_spec platform (before ++ (inner ++ after)).length _ _ _ _ after isValue
    distinct small isBefore (endsValue_space isAfter) valid
  rw [haxeJsonParse, if_neg nonempty]
  refine Yields.bind first ?_
  rintro ⟨result, rest⟩ ⟨isRest, holds⟩
  obtain rfl : rest = after := isRest
  have done : skipWhitespace rest = [] := List.dropWhile_eq_nil_iff.mpr isAfter
  dsimp only
  rw [done]
  exact Yields.ok holds

end

end Rayzor.Json
