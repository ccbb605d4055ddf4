import Rayzor.Json.Strict

/-!
Contract: which texts the parser accepts, and what it delivers of them.
-/

namespace Rayzor.Json

open Library

theorem IsNumber.encoded {text : Bytes} {tree : Tree} (isNumber : IsNumber text tree) :
    Encoded text := by
  have run : ∀ {digits : List Nat}, (∀ digit ∈ digits, digit < 10) →
      Encoded (digits.map digitByte) := by
    intro digits small
    refine encoded_of_ascii fun b isIn => ?_
    obtain ⟨digit, isDigit, rfl⟩ := List.mem_map.mp isIn
    have isSmall := small digit isDigit
    rw [digitByte_toNat isSmall]
    omega
  have sign : ∀ negative, Encoded (minus negative) := by
    intro negative
    cases negative with
    | true => exact encoded_ascii (by decide)
    | false => exact encoded_nil
  cases isNumber with
  | @int negative digits isDigits _ => exact (sign negative).append (run isDigits.small)
  | @float negative digits fraction exponent isDigits isFraction isExponent _ =>
      have fractionPart : Encoded fraction := by
        cases isFraction with
        | none => exact encoded_nil
        | digits isRun => exact (run isRun.small).cons (by decide)
      have exponentPart : Encoded exponent := by
        cases isExponent with
        | none => exact encoded_nil
        | digits isMark isSign isRun =>
            have signPart := run isRun.small
            refine Encoded.cons (by rcases isMark with rfl | rfl <;> decide) ?_
            cases isSign with
            | none => exact signPart
            | plus => exact signPart.cons (by decide)
            | minus => exact signPart.cons (by decide)
      exact (sign negative).append ((run isDigits.small).append (fractionPart.append exponentPart))

theorem IsChars.quoted_encoded {raw : Bytes} (isChars : IsChars raw) : Encoded (quoted raw) :=
  (isChars.encoded.append (encoded_ascii (by decide))).cons (by decide)

mutual

theorem Writes.encoded : ∀ {text : Bytes} {tree : Tree}, Writes text tree → Encoded text
  | _, _, .nullWord => word_encoded (by simp)
  | _, _, .trueWord => word_encoded (by simp)
  | _, _, .falseWord => word_encoded (by simp)
  | _, _, .number isNumber => isNumber.encoded
  | _, _, .string isChars => isChars.quoted_encoded
  | _, _, .emptyArray isSpace =>
      (isSpace.encoded.append (encoded_ascii (by decide))).cons (by decide)
  | _, _, .array elements =>
      ((WritesElements.encoded elements).append (encoded_ascii (by decide))).cons (by decide)
  | _, _, .emptyObject isSpace =>
      (isSpace.encoded.append (encoded_ascii (by decide))).cons (by decide)
  | _, _, .object members =>
      ((WritesMembers.encoded members).append (encoded_ascii (by decide))).cons (by decide)

theorem WritesElements.encoded : ∀ {text : Bytes} {elements : List Tree},
    WritesElements text elements → Encoded text
  | _, _, .last before inner after =>
      before.encoded.append ((Writes.encoded inner).append after.encoded)
  | _, _, .more before inner after later =>
      before.encoded.append ((Writes.encoded inner).append
        (after.encoded.append ((WritesElements.encoded later).cons (by decide))))

theorem WritesMembers.encoded : ∀ {text : Bytes} {members : List (Bytes × Tree)},
    WritesMembers text members → Encoded text
  | _, _, .last before key behind middle inner after =>
      before.encoded.append (key.quoted_encoded.append (behind.encoded.append
        ((middle.encoded.append ((Writes.encoded inner).append after.encoded)).cons (by decide))))
  | _, _, .more before key behind middle inner after later =>
      before.encoded.append (key.quoted_encoded.append (behind.encoded.append
        ((middle.encoded.append ((Writes.encoded inner).append (after.encoded.append
          ((WritesMembers.encoded later).cons (by decide))))).cons (by decide))))

end

section

variable {platform : Platform}

/-- An entry that the parser sets, for a member. -/
def Enters (platform : Platform) (entry : Bytes × Dynamic) (member : Bytes × Tree) : Prop :=
  storedName entry.1 = nameOf member.1 ∧ (Delivers platform entry.2 member.2 ↔ Whole member.2)

theorem setFields_append (before after : List (Bytes × Dynamic)) (fields : Fields) :
    setFields (before ++ after) fields = setFields after (setFields before fields) :=
  List.foldl_append

theorem slot?_last {entries : List (Bytes × Dynamic)} {members : List (Bytes × Tree)}
    (entered : List.Forall₂ (Enters platform) entries members) {member : Bytes × Tree}
    (isLast : IsLast members member) :
    ∃ value, slot? (nameOf member.1) (setFields entries []) = some (unboxed value) ∧
      (Delivers platform value member.2 ↔ Whole member.2) := by
  obtain ⟨before, after, rfl, others⟩ := isLast
  have front := List.forall₂_take_append entries before _ entered
  have back := List.forall₂_drop_append entries before _ entered
  rw [← List.take_append_drop before.length entries]
  generalize entries.take before.length = earlier at front
  generalize entries.drop before.length = rest at back
  cases back with
  | @cons entry _ later _ isEntry behind =>
      refine ⟨entry.2, ?_, isEntry.2⟩
      have apart : ∀ other ∈ later, storedName other.1 ≠ nameOf member.1 := by
        intro other isIn
        obtain ⟨source, isSource, sets⟩ := exists_related behind isIn
        rw [sets.1]
        exact others source isSource
      rw [setFields_append]
      show slot? _ (setFields later (setField _ entry.1 entry.2)) = _
      rw [slot?_setFields_other apart, setField, slot?_insert]
      exact if_pos isEntry.1

theorem delivers_object_iff {entries : List (Bytes × Dynamic)} {members : List (Bytes × Tree)}
    (entered : List.Forall₂ (Enters platform) entries members) :
    Delivers platform (.anon false (setFields entries [])) (.object members) ↔
      Whole (.object members) := by
  constructor
  · intro delivers
    cases delivers with
    | object _ values =>
        refine Whole.object fun member isLast => ?_
        obtain ⟨value, found, kept⟩ := slot?_last entered isLast
        have delivered := values member isLast _ found
        rw [boxValueAsDynamic_unboxed] at delivered
        exact kept.mp delivered
  · intro whole
    cases whole with
    | object each =>
        refine Delivers.object ?_ ?_
        · intro member isLast
          obtain ⟨value, found, _⟩ := slot?_last entered isLast
          rw [found]
          exact Option.some_ne_none _
        · intro member isLast slot isSlot
          obtain ⟨value, found, kept⟩ := slot?_last entered isLast
          rw [found, Option.some.injEq] at isSlot
          rw [← isSlot, boxValueAsDynamic_unboxed]
          exact kept.mpr (each member isLast)

theorem delivers_array_iff {slots : List Dynamic} {elements : List Tree}
    (each : List.Forall₂ (fun slot element => Delivers platform slot element ↔ Whole element)
      slots elements) :
    Delivers platform (.array slots) (.array elements) ↔ Whole (.array elements) := by
  constructor
  · intro delivers
    cases delivers with
    | array all =>
        refine Whole.array ?_
        induction each with
        | nil => exact fun element isIn => absurd isIn List.not_mem_nil
        | cons first _ ih =>
            cases all with
            | cons isFirst later =>
                intro element isIn
                rcases List.mem_cons.mp isIn with rfl | isLater
                · exact first.mp isFirst
                · exact ih later element isLater
  · intro whole
    cases whole with
    | array all =>
        refine Delivers.array ?_
        induction each with
        | nil => exact List.Forall₂.nil
        | cons first _ ih =>
            exact List.Forall₂.cons (first.mpr (all _ List.mem_cons_self))
              (ih fun element isIn => all element (List.mem_cons_of_mem _ isIn))

end

section

variable (platform : Platform) (size : Nat)

/-- The outcome of parsing a value with the rest behind it. -/
def Keeps (tree : Tree) (rest : Bytes) : Except Fault (Read Dynamic) → Prop :=
  Yields (fun _ => True) fun read => read.2 = rest ∧ Survives platform.overflowChecks tree ∧
    (Delivers platform read.1 tree ↔ Whole tree)

/-- The outcome of the loop over elements, with the slots before. -/
def KeepsElements (slots : List Dynamic) (elements : List Tree) (rest : Bytes) :
    Except Fault (Read Dynamic) → Prop :=
  Yields (fun _ => True) fun read => read.2 = rest ∧
    (∀ element ∈ elements, Survives platform.overflowChecks element) ∧
    ∃ more, read.1 = .array (slots ++ more) ∧
      List.Forall₂ (fun slot element => Delivers platform slot element ↔ Whole element)
        more elements

/-- The outcome of the loop over members, with the fields before. -/
def KeepsMembers (fields : Fields) (members : List (Bytes × Tree)) (rest : Bytes) :
    Except Fault (Read Dynamic) → Prop :=
  Yields (fun _ => True) fun read => read.2 = rest ∧
    (∀ member ∈ members, Survives platform.overflowChecks member.2) ∧
    ∃ entries, read.1 = .anon false (setFields entries fields) ∧
      List.Forall₂ (Enters platform) entries members

variable {platform size}

theorem keeps_out {tree : Tree} {rest : Bytes} {fault : Fault} :
    Keeps platform tree rest (.error fault) := Yields.error trivial

theorem keeps_ok {tree : Tree} {rest : Bytes} {value : Dynamic}
    (survives : Survives platform.overflowChecks tree) (delivers : Delivers platform value tree)
    (whole : Whole tree) : Keeps platform tree rest (.ok (value, rest)) :=
  Yields.ok ⟨rfl, survives, iff_of_true delivers whole⟩

theorem keeps_number {text before rest : Bytes} {tree : Tree} (isNumber : IsNumber text tree)
    (isBefore : IsSpace before) (ends : EndsValue rest) (fuel : Nat) :
    Keeps platform tree rest
      (parseValue platform size (fuel + 1) (before ++ (text ++ rest))) := by
  have parsed := isNumber.parsed platform ends.number
  obtain ⟨c, more, rfl, visible, _, one, two, three, four, five, six, isFirst⟩ := isNumber.start
  rw [List.cons_append] at parsed ⊢
  rw [parseValue_start isBefore visible, if_neg one, if_neg two, if_neg three, if_neg four,
    if_neg five, if_neg six, if_pos isFirst]
  rcases parsed with isError | ⟨value, isOk, survives, delivers⟩
  · rw [isError]
    exact keeps_out
  · rw [isOk]
    exact Yields.ok ⟨rfl, survives, delivers⟩

theorem keeps_word {chars : List Char} {c : Char} {more : List Char} (shape : chars = c :: more)
    {value : Dynamic} {tree : Tree} (survives : Survives platform.overflowChecks tree)
    (delivers : Delivers platform value tree) (whole : Whole tree) (rest : Bytes) :
    Keeps platform tree rest (.ok (parseWord chars value (byte c :: (more.map byte ++ rest)))) := by
  have same : byte c :: (more.map byte ++ rest) = word chars ++ rest := by rw [shape]; rfl
  rw [same, parseWord_eq]
  exact keeps_ok survives delivers whole

theorem parseMembers_enters {before key behind middle : Bytes} (isBefore : IsSpace before)
    (isKey : IsChars key) (isBehind : IsSpace behind) (fuel : Nat) (fields : Fields)
    (rest : Bytes) (valid : Utf8.isValid (middle ++ rest) = true) :
    parseMembers platform size (fuel + 1) fields
        (before ++ (quoted key ++ (behind ++ byte ':' :: (middle ++ rest)))) =
      (do
        let (value, behind) ← parseValue platform size fuel (middle ++ rest)
        let fields := setField fields (parseStringKey (key ++ [quoteByte])).1 value
        match skipWhitespace behind with
        | [] => .ok (.anon false fields, [])
        | mark :: next =>
            if mark = byte ',' then parseMembers platform size fuel fields next
            else if mark = byte '}' then .ok (.anon false fields, next)
            else .ok (.anon false fields, mark :: next)) := by
  have shape : quoted key ++ (behind ++ byte ':' :: (middle ++ rest)) =
      quoteByte :: (key ++ quoteByte :: (behind ++ byte ':' :: (middle ++ rest))) := by
    rw [quoted, List.cons_append, List.append_assoc]
    rfl
  have validBehind : Utf8.isValid (behind ++ byte ':' :: (middle ++ rest)) = true :=
    isValid_mark (by decide) isBehind.encoded valid
  rw [shape, parseMembers, skipWhitespace_space isBefore, skipWhitespace_cons (by decide)]
  dsimp only
  rw [if_neg (by decide), parseStringKey, parseStringKey, parseString_behind, isKey.ends,
    parseString_name isKey validBehind, skipWhitespace_mark (Or.inr (Or.inr (Or.inr rfl))) isBehind]
  exact if_neg (by decide)

theorem parseValue_skip (fuel : Nat) (text : Bytes) :
    parseValue platform size fuel text = parseValue platform size fuel (skipWhitespace text) := by
  cases fuel with
  | zero => rfl
  | succ fuel => rw [parseValue, parseValue, skipWhitespace_skip]

theorem parseElements_skip (fuel : Nat) (slots : List Dynamic) (text : Bytes) :
    parseElements platform size fuel slots text =
      parseElements platform size fuel slots (skipWhitespace text) := by
  cases fuel with
  | zero => rfl
  | succ fuel => rw [parseElements, parseElements, parseValue_skip]

theorem parseMembers_skip (fuel : Nat) (fields : Fields) (text : Bytes) :
    parseMembers platform size fuel fields text =
      parseMembers platform size fuel fields (skipWhitespace text) := by
  cases fuel with
  | zero => rfl
  | succ fuel => rw [parseMembers, parseMembers, skipWhitespace_skip]

mutual

/-- Parsing a text of the grammar delivers what was written exactly when it is whole. -/
theorem parseValue_delivers : ∀ (fuel : Nat) {text before : Bytes} {tree : Tree} (rest : Bytes),
    Writes text tree → IsSpace before → EndsValue rest → Utf8.isValid rest = true →
    Keeps platform tree rest (parseValue platform size fuel (before ++ (text ++ rest)))
  | 0, _, _, _, _, _, _, _, _ => keeps_out
  | fuel + 1, _, _, _, rest, writes, isBefore, ends, valid => by
      cases writes with
      | nullWord =>
          have start := @parseValue_start platform size _ isBefore (byte 'n') (by decide) fuel
            (['u', 'l', 'l'].map byte ++ rest)
          rw [if_neg (by decide), if_neg (by decide), if_neg (by decide), if_neg (by decide),
            if_neg (by decide), if_pos rfl] at start
          exact start.symm ▸ keeps_word rfl Survives.null Delivers.null Whole.null rest
      | trueWord =>
          have start := @parseValue_start platform size _ isBefore (byte 't') (by decide) fuel
            (['r', 'u', 'e'].map byte ++ rest)
          rw [if_neg (by decide), if_neg (by decide), if_neg (by decide), if_pos rfl] at start
          exact start.symm ▸ keeps_word rfl (Survives.bool true) (Delivers.bool true)
            (Whole.bool true) rest
      | falseWord =>
          have start := @parseValue_start platform size _ isBefore (byte 'f') (by decide) fuel
            (['a', 'l', 's', 'e'].map byte ++ rest)
          rw [if_neg (by decide), if_neg (by decide), if_neg (by decide), if_neg (by decide),
            if_pos rfl] at start
          exact start.symm ▸ keeps_word rfl (Survives.bool false) (Delivers.bool false)
            (Whole.bool false) rest
      | number isNumber => exact keeps_number isNumber isBefore ends fuel
      | @string raw isChars =>
          rw [quoted, List.cons_append, List.append_assoc, parseValue_start isBefore (by decide),
            if_neg (by decide), if_neg (by decide), if_pos rfl, parseStringValue,
            parseString_behind, List.singleton_append, isChars.ends]
          exact keeps_ok (Survives.string raw) (Delivers.string _ raw) (Whole.string raw)
      | @emptyArray space isSpace =>
          have survives : Survives platform.overflowChecks (.array []) :=
            Survives.array fun element isIn => absurd isIn List.not_mem_nil
          have whole : Whole (.array []) :=
            Whole.array fun element isIn => absurd isIn List.not_mem_nil
          rw [List.cons_append, parseValue_start isBefore (by decide), if_neg (by decide),
            if_pos rfl]
          cases fuel with
          | zero => exact keeps_out
          | succ fuel =>
              rw [List.append_assoc, parseArray, List.singleton_append,
                skipWhitespace_mark (Or.inr (Or.inl rfl)) isSpace]
              dsimp only
              rw [if_pos rfl]
              exact keeps_ok survives (Delivers.array List.Forall₂.nil) whole
      | @array inner elements isElements =>
          obtain ⟨b, more, skipped, notEnd⟩ := isElements.start (byte ']' :: rest)
          rw [List.cons_append, parseValue_start isBefore (by decide), if_neg (by decide),
            if_pos rfl]
          cases fuel with
          | zero => exact keeps_out
          | succ fuel =>
              have loop := parseElements_delivers fuel [] rest isElements valid
              rw [parseElements_skip, skipped] at loop
              rw [List.append_assoc, parseArray, List.singleton_append, skipped]
              dsimp only
              rw [if_neg notEnd]
              refine loop.mono fun read isRead => ?_
              obtain ⟨isRest, survive, more, isArray, each⟩ := isRead
              rw [isArray]
              exact ⟨isRest, Survives.array survive, delivers_array_iff each⟩
      | @emptyObject space isSpace =>
          have survives : Survives platform.overflowChecks (.object []) :=
            Survives.object fun member isIn => absurd isIn List.not_mem_nil
          have isNil : Delivers platform (.anon false []) (.object []) ↔ Whole (.object []) :=
            delivers_object_iff List.Forall₂.nil
          rw [List.cons_append, parseValue_start isBefore (by decide), if_pos rfl]
          cases fuel with
          | zero => exact keeps_out
          | succ fuel =>
              rw [List.append_assoc, parseObject, List.singleton_append,
                skipWhitespace_mark (Or.inr (Or.inr (Or.inl rfl))) isSpace]
              dsimp only
              rw [if_pos rfl]
              exact Yields.ok ⟨rfl, survives, isNil⟩
      | @object inner members isMembers =>
          obtain ⟨more, skipped⟩ := isMembers.start (byte '}' :: rest)
          rw [List.cons_append, parseValue_start isBefore (by decide), if_pos rfl]
          cases fuel with
          | zero => exact keeps_out
          | succ fuel =>
              have loop := parseMembers_delivers fuel [] rest isMembers valid
              rw [parseMembers_skip, skipped] at loop
              rw [List.append_assoc, parseObject, List.singleton_append, skipped]
              dsimp only
              rw [if_neg (by decide)]
              refine loop.mono fun read isRead => ?_
              obtain ⟨isRest, survive, entries, isObject, entered⟩ := isRead
              rw [isObject]
              exact ⟨isRest, Survives.object survive, delivers_object_iff entered⟩

theorem parseElements_delivers : ∀ (fuel : Nat) (slots : List Dynamic) {text : Bytes}
    {elements : List Tree} (rest : Bytes), WritesElements text elements →
    Utf8.isValid rest = true →
    KeepsElements platform slots elements rest
      (parseElements platform size fuel slots (text ++ byte ']' :: rest))
  | 0, _, _, _, _, _, _ => Yields.error trivial
  | fuel + 1, slots, _, _, rest, writes, valid => by
      cases writes with
      | @last before inner after tree isBefore isInner isAfter =>
          have first := parseValue_delivers fuel (after ++ byte ']' :: rest) isInner isBefore
            (endsValue_mark (Or.inr (Or.inl rfl)) isAfter rest)
            (isValid_mark (by decide) isAfter.encoded valid)
          rw [List.append_assoc, List.append_assoc, parseElements]
          refine Yields.bind first ?_
          rintro ⟨slot, behind⟩ ⟨isBehind, survives, delivers⟩
          obtain rfl : behind = after ++ byte ']' :: rest := isBehind
          dsimp only
          rw [skipWhitespace_mark (Or.inr (Or.inl rfl)) isAfter]
          dsimp only
          rw [if_neg (by decide), if_pos rfl]
          exact Yields.ok ⟨rfl, List.forall_mem_singleton.mpr survives, [slot], rfl,
            List.Forall₂.cons delivers List.Forall₂.nil⟩
      | @more before inner after later tree elements isBefore isInner isAfter isLater =>
          have validLater : Utf8.isValid (later ++ byte ']' :: rest) = true :=
            isValid_mark (by decide) isLater.encoded valid
          have first := parseValue_delivers fuel (after ++ byte ',' :: (later ++ byte ']' :: rest))
            isInner isBefore (endsValue_mark (Or.inl rfl) isAfter _)
            (isValid_mark (by decide) isAfter.encoded validLater)
          rw [List.append_assoc, List.append_assoc, List.append_assoc, List.cons_append,
            parseElements]
          refine Yields.bind first ?_
          rintro ⟨slot, behind⟩ ⟨isBehind, survives, delivers⟩
          obtain rfl : behind = after ++ byte ',' :: (later ++ byte ']' :: rest) := isBehind
          dsimp only
          rw [skipWhitespace_mark (Or.inl rfl) isAfter]
          dsimp only
          rw [if_pos rfl]
          refine (parseElements_delivers fuel (slots ++ [slot]) rest isLater valid).mono
            fun read isRead => ?_
          obtain ⟨isRest, survive, more, isArray, each⟩ := isRead
          rw [List.append_assoc] at isArray
          exact ⟨isRest, List.forall_mem_cons.mpr ⟨survives, survive⟩, slot :: more, isArray,
            List.Forall₂.cons delivers each⟩

theorem parseMembers_delivers : ∀ (fuel : Nat) (fields : Fields) {text : Bytes}
    {members : List (Bytes × Tree)} (rest : Bytes), WritesMembers text members →
    Utf8.isValid rest = true →
    KeepsMembers platform fields members rest
      (parseMembers platform size fuel fields (text ++ byte '}' :: rest))
  | 0, _, _, _, _, _, _ => Yields.error trivial
  | fuel + 1, fields, _, _, rest, writes, valid => by
      cases writes with
      | @last before key behind middle inner after tree isBefore isKey isBehind isMiddle isInner
          isAfter =>
          have validAfter : Utf8.isValid (after ++ byte '}' :: rest) = true :=
            isValid_mark (by decide) isAfter.encoded valid
          have validMiddle : Utf8.isValid (middle ++ (inner ++ (after ++ byte '}' :: rest))) =
              true := by
            rw [isMiddle.encoded.isValid_append, isInner.encoded.isValid_append, validAfter]
          have first := parseValue_delivers fuel (after ++ byte '}' :: rest) isInner isMiddle
            (endsValue_mark (Or.inr (Or.inr rfl)) isAfter rest) validAfter
          simp only [List.append_assoc, List.cons_append]
          rw [parseMembers_enters isBefore isKey isBehind fuel fields _ validMiddle]
          refine Yields.bind first ?_
          rintro ⟨slot, left⟩ ⟨isLeft, survives, delivers⟩
          obtain rfl : left = after ++ byte '}' :: rest := isLeft
          dsimp only
          rw [skipWhitespace_mark (Or.inr (Or.inr (Or.inl rfl))) isAfter]
          dsimp only
          rw [if_neg (by decide), if_pos rfl]
          exact Yields.ok ⟨rfl, List.forall_mem_singleton.mpr survives,
            [((parseStringKey (key ++ [quoteByte])).1, slot)], rfl,
            List.Forall₂.cons ⟨rfl, delivers⟩ List.Forall₂.nil⟩
      | @more before key behind middle inner after later tree members isBefore isKey isBehind
          isMiddle isInner isAfter isLater =>
          have validLater : Utf8.isValid (later ++ byte '}' :: rest) = true :=
            isValid_mark (by decide) isLater.encoded valid
          have validAfter : Utf8.isValid (after ++ byte ',' :: (later ++ byte '}' :: rest)) =
              true := isValid_mark (by decide) isAfter.encoded validLater
          have validMiddle : Utf8.isValid
              (middle ++ (inner ++ (after ++ byte ',' :: (later ++ byte '}' :: rest)))) = true := by
            rw [isMiddle.encoded.isValid_append, isInner.encoded.isValid_append, validAfter]
          have first := parseValue_delivers fuel (after ++ byte ',' :: (later ++ byte '}' :: rest))
            isInner isMiddle (endsValue_mark (Or.inl rfl) isAfter _) validAfter
          simp only [List.append_assoc, List.cons_append]
          rw [parseMembers_enters isBefore isKey isBehind fuel fields _ validMiddle]
          refine Yields.bind first ?_
          rintro ⟨slot, left⟩ ⟨isLeft, survives, delivers⟩
          obtain rfl : left = after ++ byte ',' :: (later ++ byte '}' :: rest) := isLeft
          dsimp only
          rw [skipWhitespace_mark (Or.inl rfl) isAfter]
          dsimp only
          rw [if_pos rfl]
          refine (parseMembers_delivers fuel
            (setField fields (parseStringKey (key ++ [quoteByte])).1 slot) rest isLater valid).mono
            fun read isRead => ?_
          obtain ⟨isRest, survive, entries, isObject, entered⟩ := isRead
          exact ⟨isRest, List.forall_mem_cons.mpr ⟨survives, survive⟩,
            ((parseStringKey (key ++ [quoteByte])).1, slot) :: entries, isObject,
            List.Forall₂.cons ⟨rfl, delivers⟩ entered⟩

end

end

section

variable {platform : Platform} {text : Bytes} {tree : Tree}

theorem IsJsonText.scans (isJson : IsJsonText text tree)
    (survives : Survives platform.overflowChecks tree) :
    ∃ rest, Scans platform.overflowChecks text true rest ∧ IsSpace rest := by
  obtain ⟨before, inner, after, rfl, isBefore, writes, isAfter⟩ := isJson
  exact ⟨after, writes.scans after survives isBefore (endsValue_space isAfter), isAfter⟩

theorem isJsonText_of_scans {checks : Bool} {rest : Bytes} (scans : Scans checks text true rest)
    (isSpace : IsSpace rest) : ∃ tree, IsJsonText text tree := by
  obtain ⟨before, inner, tree, rfl, isBefore, writes⟩ := scans.writes rfl
  exact ⟨tree, before, inner, rest, rfl, isBefore, writes, isSpace⟩

theorem haxeJsonParse_delivers (isJson : IsJsonText text tree) {value : Dynamic}
    (isOk : haxeJsonParse platform text = .ok value) :
    Survives platform.overflowChecks tree ∧ (Delivers platform value tree ↔ Whole tree) := by
  obtain ⟨before, inner, after, rfl, isBefore, writes, isAfter⟩ := isJson
  have nonempty : before ++ (inner ++ after) ≠ [] := by
    obtain ⟨b, more, rfl, _⟩ := writes.start
    simp
  have valid : Utf8.isValid after = true := by
    have whole := isAfter.encoded.isValid_append []
    rw [List.append_nil] at whole
    rw [whole, Utf8.isValid]
  have first := @parseValue_delivers platform (before ++ (inner ++ after)).length
    (enoughFuel (before ++ (inner ++ after))) _ _ _ after writes isBefore (endsValue_space isAfter)
    valid
  suffices whole : Yields (fun _ => True) (fun value => Survives platform.overflowChecks tree ∧
      (Delivers platform value tree ↔ Whole tree))
      (haxeJsonParse platform (before ++ (inner ++ after))) from whole.of_eq_ok isOk
  rw [haxeJsonParse, if_neg nonempty]
  refine Yields.bind first ?_
  rintro ⟨result, rest⟩ ⟨isRest, survives, delivers⟩
  obtain rfl : rest = after := isRest
  have done : skipWhitespace rest = [] := List.dropWhile_eq_nil_iff.mpr isAfter
  dsimp only
  rw [done]
  exact Yields.ok ⟨survives, delivers⟩

/-- The parser returns on this text exactly when it is JSON, and delivers what it says. -/
def Meets (platform : Platform) (text : Bytes) : Prop :=
  ((∃ value, haxeJsonParse platform text = .ok value) ↔ ∃ tree, IsJsonText text tree) ∧
    ∀ value tree, haxeJsonParse platform text = .ok value → IsJsonText text tree →
      Delivers platform value tree

theorem not_meets_of_tolerated (tolerated : Tolerated platform.overflowChecks text) :
    ¬ Meets platform text := by
  rintro ⟨accepts, _⟩
  obtain ⟨rest, scans, isSpace⟩ := tolerated
  have accepted := (accepts_iff platform text).mpr ⟨false, rest, scans, isSpace⟩
  obtain ⟨tree, isJson⟩ := accepts.mp accepted
  obtain ⟨value, isOk⟩ := accepted
  obtain ⟨rest', strictly, _⟩ := isJson.scans (haxeJsonParse_delivers isJson isOk).1
  exact absurd (scans_unique scans strictly).1 Bool.false_ne_true

/-- The parser meets JSON exactly on the texts that no lenient rule lets through, whose
integers all survive and are whole. -/
theorem meets_iff (platform : Platform) (text : Bytes) :
    Meets platform text ↔ ¬ Tolerated platform.overflowChecks text ∧
      ∀ tree, IsJsonText text tree → Survives platform.overflowChecks tree ∧ Whole tree := by
  constructor
  · intro meets
    refine ⟨fun tolerated => not_meets_of_tolerated tolerated meets, fun tree isJson => ?_⟩
    obtain ⟨value, isOk⟩ := meets.1.mpr ⟨tree, isJson⟩
    obtain ⟨survives, delivers⟩ := haxeJsonParse_delivers isJson isOk
    exact ⟨survives, delivers.mp (meets.2 value tree isOk isJson)⟩
  · rintro ⟨strictly, sound⟩
    refine ⟨⟨fun accepted => ?_, fun isJson => ?_⟩, fun value tree isOk isJson => ?_⟩
    · obtain ⟨strict, rest, scans, isSpace⟩ := (accepts_iff platform text).mp accepted
      cases strict with
      | true => exact isJsonText_of_scans scans isSpace
      | false => exact absurd ⟨rest, scans, isSpace⟩ strictly
    · obtain ⟨tree, isJson⟩ := isJson
      obtain ⟨rest, scans, isSpace⟩ := isJson.scans (sound tree isJson).1
      exact (accepts_iff platform text).mpr ⟨true, rest, scans, isSpace⟩
    · exact (haxeJsonParse_delivers isJson isOk).2.mpr (sound tree isJson).2

/-- An array that is never closed passes. -/
theorem open_array_passes : ¬ ∀ platform text, Meets platform text := by
  have tolerated : Tolerated false [byte '['] :=
    ⟨[], Scans.array rfl (@ScansElements.last false [] [] [] false false (Scans.plain rfl) rfl),
      IsSpace.nil⟩
  intro meets
  exact not_meets_of_tolerated tolerated (meets ⟨false, fun _ => 0, fun _ => []⟩ [byte '['])

end

end Rayzor.Json
