import Rayzor.Json.Literals
import Rayzor.Json.Parsed

/-!
Contract: the strict derivations of the lenient grammar are the texts of JSON.
-/

namespace Rayzor.Json

open Library

theorem skipped_split {text rest : Bytes} (skipped : skipWhitespace text = rest) :
    ∃ before, text = before ++ rest ∧ IsSpace before :=
  ⟨text.takeWhile isSpaceByte, by
    rw [← skipped, skipWhitespace, List.takeWhile_append_dropWhile],
    fun _ isIn => List.mem_takeWhile_imp isIn⟩

theorem IsSpace.append {before after : Bytes} (isBefore : IsSpace before) (isAfter : IsSpace after) :
    IsSpace (before ++ after) :=
  fun b isIn => (List.mem_append.mp isIn).elim (isBefore b) (isAfter b)

theorem behindNumber_split (text : Bytes) : text = literalOf text ++ behindNumber text := by
  have suffix : behindNumber text <:+ text := behindNumber_suffix text
  obtain ⟨front, whole⟩ := suffix
  have height := congrArg List.length whole
  rw [List.length_append] at height
  have taken : literalOf text = front := by
    rw [literalOf, ← height, Nat.add_sub_cancel]
    conv_lhs => rw [← whole]
    exact List.take_left
  rw [taken, whole]

theorem WritesElements.space {space text : Bytes} {elements : List Tree} (isSpace : IsSpace space)
    (writes : WritesElements text elements) : WritesElements (space ++ text) elements := by
  cases writes with
  | last before inner after =>
      rw [← List.append_assoc]
      exact WritesElements.last (isSpace.append before) inner after
  | more before inner after later =>
      rw [← List.append_assoc]
      exact WritesElements.more (isSpace.append before) inner after later

theorem WritesMembers.space {space text : Bytes} {members : List (Bytes × Tree)}
    (isSpace : IsSpace space) (writes : WritesMembers text members) :
    WritesMembers (space ++ text) members := by
  cases writes with
  | last before key behind middle inner after =>
      rw [← List.append_assoc]
      exact WritesMembers.last (isSpace.append before) key behind middle inner after
  | more before key behind middle inner after later =>
      rw [← List.append_assoc]
      exact WritesMembers.more (isSpace.append before) key behind middle inner after later

section

variable {checks : Bool}

theorem writes_of_dueObject {text rest : Bytes} (due : dueObject text = .plain true rest) :
    ∃ tree inner, byte '{' :: text = inner ++ rest ∧ Writes inner tree := by
  rw [dueObject] at due
  cases shape : skipWhitespace text with
  | nil => rw [shape] at due; exact absurd due (by simp)
  | cons mark more =>
      rw [shape] at due
      dsimp only at due
      split_ifs at due with isClose
      obtain ⟨_, rfl⟩ := Due.plain.inj due
      obtain ⟨space, whole, isSpace⟩ := skipped_split shape
      refine ⟨_, _, ?_, Writes.emptyObject isSpace⟩
      rw [whole, isClose, List.cons_append, List.append_assoc]
      rfl

theorem writes_of_dueArray {text rest : Bytes} (due : dueArray text = .plain true rest) :
    ∃ tree inner, byte '[' :: text = inner ++ rest ∧ Writes inner tree := by
  rw [dueArray] at due
  cases shape : skipWhitespace text with
  | nil => rw [shape] at due; exact absurd due (by simp)
  | cons mark more =>
      rw [shape] at due
      dsimp only at due
      split_ifs at due with isClose
      obtain ⟨_, rfl⟩ := Due.plain.inj due
      obtain ⟨space, whole, isSpace⟩ := skipped_split shape
      refine ⟨_, _, ?_, Writes.emptyArray isSpace⟩
      rw [whole, isClose, List.cons_append, List.append_assoc]
      rfl

theorem writes_of_dueString {text rest : Bytes} (due : dueString text = .plain true rest) :
    ∃ tree inner, quoteByte :: text = inner ++ rest ∧ Writes inner tree := by
  obtain ⟨closed, rfl⟩ := Due.plain.inj due
  obtain ⟨raw, isChars, whole⟩ := @of_decide_eq_true _ (Classical.propDecidable _) closed
  refine ⟨_, _, ?_, Writes.string isChars⟩
  rw [quoted, List.cons_append, List.append_assoc]
  exact congrArg (quoteByte :: ·) whole

theorem writes_of_dueWord {chars : List Char} {text rest : Bytes} {tree : Tree}
    (due : dueWord chars text = .plain true rest) (writes : Writes (word chars) tree) :
    ∃ tree inner, text = inner ++ rest ∧ Writes inner tree := by
  rw [dueWord] at due
  split_ifs at due with isWord
  · obtain ⟨_, rfl⟩ := Due.plain.inj due
    exact ⟨tree, word chars, by rw [← isWord, List.take_append_drop], writes⟩
  · exact absurd (Due.plain.inj due).1 Bool.false_ne_true

theorem writes_of_dueNumber {text rest : Bytes} (due : dueNumber checks text = .plain true rest) :
    ∃ tree inner, text = inner ++ rest ∧ Writes inner tree := by
  rw [dueNumber] at due
  split_ifs at due with least
  obtain ⟨strict, rfl⟩ := Due.plain.inj due
  obtain ⟨tree, isNumber⟩ := @of_decide_eq_true _ (Classical.propDecidable _) strict
  exact ⟨tree, literalOf text, behindNumber_split text, Writes.number isNumber⟩

/-- A value without parts that is read strictly. -/
theorem writes_of_plain {text rest : Bytes} (look : lookValue checks text = .plain true rest) :
    ∃ before inner tree, text = before ++ (inner ++ rest) ∧ IsSpace before ∧
      Writes inner tree := by
  rw [lookValue] at look
  cases shape : skipWhitespace text with
  | nil => rw [shape] at look; exact absurd (Due.plain.inj look).1 Bool.false_ne_true
  | cons c more =>
      obtain ⟨before, whole, isBefore⟩ := skipped_split shape
      suffices found : ∃ tree inner, c :: more = inner ++ rest ∧ Writes inner tree by
        obtain ⟨tree, inner, isInner, writes⟩ := found
        exact ⟨before, inner, tree, by rw [whole, isInner], isBefore, writes⟩
      rw [shape] at look
      dsimp only at look
      split_ifs at look with isObject isArray isString isTrue isFalse isNull isNumber
      · exact isObject ▸ writes_of_dueObject look
      · exact isArray ▸ writes_of_dueArray look
      · exact isString ▸ writes_of_dueString look
      · exact writes_of_dueWord look Writes.trueWord
      · exact writes_of_dueWord look Writes.falseWord
      · exact writes_of_dueWord look Writes.nullWord
      · exact writes_of_dueNumber look

/-- The token of an object that is not empty. -/
theorem text_of_object {text inner : Bytes} (look : lookValue checks text = .object inner) :
    ∃ before space, text = before ++ byte '{' :: (space ++ inner) ∧ IsSpace before ∧
      IsSpace space := by
  rw [lookValue] at look
  cases shape : skipWhitespace text with
  | nil => rw [shape] at look; cases look
  | cons c more =>
      obtain ⟨before, whole, isBefore⟩ := skipped_split shape
      rw [shape] at look
      dsimp only at look
      split_ifs at look with isObject isArray isString isTrue isFalse isNull isNumber
      · rw [dueObject] at look
        cases skipped : skipWhitespace more with
        | nil => rw [skipped] at look; cases look
        | cons mark later =>
            obtain ⟨space, isMore, isSpace⟩ := skipped_split skipped
            rw [skipped] at look
            dsimp only at look
            split_ifs at look with isClose
            rw [← Due.object.inj look, whole, isObject, isMore]
            exact ⟨before, space, rfl, isBefore, isSpace⟩
      · rw [dueArray] at look
        split at look
        · cases look
        · split_ifs at look
      · cases look
      all_goals
        first
          | rw [dueWord] at look; split_ifs at look
          | rw [dueNumber] at look; split_ifs at look

theorem text_of_array {text inner : Bytes} (look : lookValue checks text = .array inner) :
    ∃ before space, text = before ++ byte '[' :: (space ++ inner) ∧ IsSpace before ∧
      IsSpace space := by
  rw [lookValue] at look
  cases shape : skipWhitespace text with
  | nil => rw [shape] at look; cases look
  | cons c more =>
      obtain ⟨before, whole, isBefore⟩ := skipped_split shape
      rw [shape] at look
      dsimp only at look
      split_ifs at look with isObject isArray isString isTrue isFalse isNull isNumber
      · rw [dueObject] at look
        split at look
        · cases look
        · split_ifs at look
      · rw [dueArray] at look
        cases skipped : skipWhitespace more with
        | nil =>
            obtain ⟨space, isMore, isSpace⟩ := skipped_split skipped
            rw [skipped] at look
            rw [← Due.array.inj look, whole, isArray, isMore]
            exact ⟨before, space, rfl, isBefore, isSpace⟩
        | cons mark later =>
            obtain ⟨space, isMore, isSpace⟩ := skipped_split skipped
            rw [skipped] at look
            dsimp only at look
            split_ifs at look with isClose
            rw [← Due.array.inj look, whole, isArray, isMore]
            exact ⟨before, space, rfl, isBefore, isSpace⟩
      · cases look
      all_goals
        first
          | rw [dueWord] at look; split_ifs at look
          | rw [dueNumber] at look; split_ifs at look

theorem lookMark_closed {close : UInt8} {text rest : Bytes}
    (look : lookMark close text = .stop true rest) :
    ∃ space, text = space ++ close :: rest ∧ IsSpace space := by
  rw [lookMark] at look
  cases shape : skipWhitespace text with
  | nil => rw [shape] at look; exact absurd (Mark.stop.inj look).1 Bool.false_ne_true
  | cons mark next =>
      obtain ⟨space, whole, isSpace⟩ := skipped_split shape
      rw [shape] at look
      dsimp only at look
      split_ifs at look with isComma isClose
      · obtain ⟨_, rfl⟩ := Mark.stop.inj look
        exact ⟨space, by rw [whole, isClose], isSpace⟩
      · exact absurd (Mark.stop.inj look).1 Bool.false_ne_true

theorem lookMark_comma {close : UInt8} {text next : Bytes}
    (look : lookMark close text = .comma next) :
    ∃ space, text = space ++ byte ',' :: next ∧ IsSpace space := by
  rw [lookMark] at look
  cases shape : skipWhitespace text with
  | nil => rw [shape] at look; cases look
  | cons mark later =>
      obtain ⟨space, whole, isSpace⟩ := skipped_split shape
      rw [shape] at look
      dsimp only at look
      split_ifs at look with isComma
      rw [← Mark.comma.inj look, whole, isComma]
      exact ⟨space, rfl, isSpace⟩

/-- The token of a member with a string of the grammar for a name. -/
theorem text_of_member {text after : Bytes} (look : lookMember text = .value true after) :
    ∃ before key behind, text = before ++ (quoted key ++ (behind ++ byte ':' :: after)) ∧
      IsSpace before ∧ IsChars key ∧ IsSpace behind := by
  rw [lookMember] at look
  cases shape : skipWhitespace text with
  | nil => rw [shape] at look; cases look
  | cons c more =>
      obtain ⟨before, whole, isBefore⟩ := skipped_split shape
      rw [shape] at look
      dsimp only at look
      split_ifs at look with isName
      cases colonShape : skipWhitespace (behindString more) with
      | nil => rw [colonShape] at look; cases look
      | cons colon later =>
          obtain ⟨behind, isBehindName, isBehind⟩ := skipped_split colonShape
          rw [colonShape] at look
          dsimp only at look
          split_ifs at look with isColon
          obtain ⟨closed, rfl⟩ := Named.value.inj look
          obtain ⟨key, isKey, isMore⟩ := @of_decide_eq_true _ (Classical.propDecidable _) closed
          refine ⟨before, key, behind, ?_, isBefore, isKey, isBehind⟩
          have isColon := not_not.mp isColon
          have isName := not_not.mp isName
          rw [whole, isName, isMore, isBehindName, isColon, quoted, List.cons_append,
            List.append_assoc]
          rfl

mutual

theorem Scans.writes : ∀ {text rest : Bytes} {strict : Bool}, Scans checks text strict rest →
    strict = true → ∃ before inner tree, text = before ++ (inner ++ rest) ∧ IsSpace before ∧
      Writes inner tree
  | _, _, _, .plain look, isStrict => writes_of_plain (isStrict ▸ look)
  | _, rest, _, .object look scans, isStrict => by
      obtain ⟨before, space, rfl, isBefore, isSpace⟩ := text_of_object look
      obtain ⟨inner, members, rfl, writes⟩ := ScansMembers.writes scans isStrict
      refine ⟨before, _, _, ?_, isBefore, Writes.object (writes.space isSpace)⟩
      simp only [List.append_assoc, List.cons_append, List.nil_append]
  | _, rest, _, .array look scans, isStrict => by
      obtain ⟨before, space, rfl, isBefore, isSpace⟩ := text_of_array look
      obtain ⟨inner, elements, rfl, writes⟩ := ScansElements.writes scans isStrict
      refine ⟨before, _, _, ?_, isBefore, Writes.array (writes.space isSpace)⟩
      simp only [List.append_assoc, List.cons_append, List.nil_append]

theorem ScansElements.writes : ∀ {text rest : Bytes} {strict : Bool},
    ScansElements checks text strict rest → strict = true →
    ∃ inner elements, text = inner ++ byte ']' :: rest ∧ WritesElements inner elements
  | _, _, _, .last first mark, isStrict => by
      rw [Bool.and_eq_true] at isStrict
      obtain ⟨before, inner, tree, rfl, isBefore, writes⟩ := Scans.writes first isStrict.1
      obtain ⟨after, rfl, isAfter⟩ := lookMark_closed (isStrict.2 ▸ mark)
      refine ⟨_, _, ?_, WritesElements.last isBefore writes isAfter⟩
      simp only [List.append_assoc]
  | _, _, _, .more first mark later, isStrict => by
      rw [Bool.and_eq_true] at isStrict
      obtain ⟨before, inner, tree, rfl, isBefore, writes⟩ := Scans.writes first isStrict.1
      obtain ⟨after, rfl, isAfter⟩ := lookMark_comma mark
      obtain ⟨others, elements, rfl, writesLater⟩ := ScansElements.writes later isStrict.2
      refine ⟨_, _, ?_, WritesElements.more isBefore writes isAfter writesLater⟩
      simp only [List.append_assoc, List.cons_append]

theorem ScansMembers.writes : ∀ {text rest : Bytes} {strict : Bool},
    ScansMembers checks text strict rest → strict = true →
    ∃ inner members, text = inner ++ byte '}' :: rest ∧ WritesMembers inner members
  | _, _, _, .stop _, isStrict => absurd isStrict Bool.false_ne_true
  | _, _, _, .last look first mark, isStrict => by
      rw [Bool.and_eq_true, Bool.and_eq_true] at isStrict
      obtain ⟨before, key, behind, rfl, isBefore, isKey, isBehind⟩ :=
        text_of_member (isStrict.1 ▸ look)
      obtain ⟨middle, inner, tree, rfl, isMiddle, writes⟩ := Scans.writes first isStrict.2.1
      obtain ⟨after, rfl, isAfter⟩ := lookMark_closed (isStrict.2.2 ▸ mark)
      refine ⟨_, _, ?_, WritesMembers.last isBefore isKey isBehind isMiddle writes isAfter⟩
      simp only [List.append_assoc, List.cons_append]
  | _, _, _, .more look first mark later, isStrict => by
      rw [Bool.and_eq_true, Bool.and_eq_true] at isStrict
      obtain ⟨before, key, behind, rfl, isBefore, isKey, isBehind⟩ :=
        text_of_member (isStrict.1 ▸ look)
      obtain ⟨middle, inner, tree, rfl, isMiddle, writes⟩ := Scans.writes first isStrict.2.1
      obtain ⟨after, rfl, isAfter⟩ := lookMark_comma mark
      obtain ⟨others, members, rfl, writesLater⟩ := ScansMembers.writes later isStrict.2.2
      refine ⟨_, _, ?_,
        WritesMembers.more isBefore isKey isBehind isMiddle writes isAfter writesLater⟩
      simp only [List.append_assoc, List.cons_append]

end

end

theorem IsNumber.start {text : Bytes} {tree : Tree} (isNumber : IsNumber text tree) :
    ∃ c more, text = c :: more ∧ isSpaceByte c = false ∧ c ≠ byte ']' ∧ c ≠ byte '{' ∧
      c ≠ byte '[' ∧ c ≠ quoteByte ∧ c ≠ byte 't' ∧ c ≠ byte 'f' ∧ c ≠ byte 'n' ∧
      (c = byte '-' ∨ isDigitByte c = true) := by
  have table : ∀ digit < 10, isSpaceByte (digitByte digit) = false ∧ digitByte digit ≠ byte ']' ∧
      digitByte digit ≠ byte '{' ∧ digitByte digit ≠ byte '[' ∧ digitByte digit ≠ quoteByte ∧
      digitByte digit ≠ byte 't' ∧ digitByte digit ≠ byte 'f' ∧ digitByte digit ≠ byte 'n' ∧
      (digitByte digit = byte '-' ∨ isDigitByte (digitByte digit) = true) := by decide
  have starts : ∀ {negative : Bool} {digits : List Nat} (rest : Bytes), IsDigits digits →
      ∃ c more, minus negative ++ (digits.map digitByte ++ rest) = c :: more ∧
        isSpaceByte c = false ∧ c ≠ byte ']' ∧ c ≠ byte '{' ∧ c ≠ byte '[' ∧ c ≠ quoteByte ∧
        c ≠ byte 't' ∧ c ≠ byte 'f' ∧ c ≠ byte 'n' ∧ (c = byte '-' ∨ isDigitByte c = true) := by
    intro negative digits rest isDigits
    cases negative with
    | true => exact ⟨_, _, rfl, by decide⟩
    | false =>
        obtain ⟨digit, more, rfl⟩ := List.exists_cons_of_ne_nil isDigits.nonempty
        exact ⟨_, _, rfl, table digit (isDigits.small digit List.mem_cons_self)⟩
  cases isNumber with
  | @int negative digits isDigits _ =>
      have start := @starts negative digits [] isDigits
      rw [List.append_nil] at start
      exact start
  | float isDigits _ _ _ => exact starts _ isDigits

theorem Writes.start {text : Bytes} {tree : Tree} (writes : Writes text tree) :
    ∃ b rest, text = b :: rest ∧ isSpaceByte b = false ∧ b ≠ byte ']' := by
  cases writes with
  | number isNumber =>
      obtain ⟨c, more, shape, visible, notEnd, _⟩ := isNumber.start
      exact ⟨c, more, shape, visible, notEnd⟩
  | nullWord => exact ⟨_, _, rfl, by decide, by decide⟩
  | trueWord => exact ⟨_, _, rfl, by decide, by decide⟩
  | falseWord => exact ⟨_, _, rfl, by decide, by decide⟩
  | string _ => exact ⟨_, _, rfl, by decide, by decide⟩
  | emptyArray _ => exact ⟨_, _, rfl, by decide, by decide⟩
  | array _ => exact ⟨_, _, rfl, by decide, by decide⟩
  | emptyObject _ => exact ⟨_, _, rfl, by decide, by decide⟩
  | object _ => exact ⟨_, _, rfl, by decide, by decide⟩

theorem WritesElements.start {text : Bytes} {elements : List Tree}
    (writes : WritesElements text elements) (rest : Bytes) :
    ∃ b more, skipWhitespace (text ++ rest) = b :: more ∧ b ≠ byte ']' := by
  cases writes with
  | last isBefore inner _ =>
      obtain ⟨b, tail, rfl, visible, notEnd⟩ := inner.start
      rw [List.append_assoc, skipWhitespace_space isBefore]
      exact ⟨b, _, skipWhitespace_cons visible _, notEnd⟩
  | more isBefore inner _ _ =>
      obtain ⟨b, tail, rfl, visible, notEnd⟩ := inner.start
      rw [List.append_assoc, skipWhitespace_space isBefore]
      exact ⟨b, _, skipWhitespace_cons visible _, notEnd⟩

theorem WritesMembers.start {text : Bytes} {members : List (Bytes × Tree)}
    (writes : WritesMembers text members) (rest : Bytes) :
    ∃ more, skipWhitespace (text ++ rest) = quoteByte :: more := by
  cases writes with
  | last isBefore _ _ _ _ _ =>
      rw [List.append_assoc, skipWhitespace_space isBefore]
      exact ⟨_, skipWhitespace_cons (by decide) _⟩
  | more isBefore _ _ _ _ _ _ =>
      rw [List.append_assoc, skipWhitespace_space isBefore]
      exact ⟨_, skipWhitespace_cons (by decide) _⟩

section

variable {checks : Bool}

theorem skipWhitespace_skip (text : Bytes) :
    skipWhitespace (skipWhitespace text) = skipWhitespace text :=
  List.dropWhile_idempotent _ text

theorem Scans.skip {text rest : Bytes} {strict : Bool} (scans : Scans checks text strict rest) :
    Scans checks (skipWhitespace text) strict rest := by
  rw [scans_iff] at scans ⊢
  rw [lookValue, skipWhitespace_skip]
  exact scans

theorem ScansElements.skip {text rest : Bytes} {strict : Bool}
    (scans : ScansElements checks text strict rest) :
    ScansElements checks (skipWhitespace text) strict rest := by
  cases scans with
  | last first mark => exact ScansElements.last first.skip mark
  | more first mark later => exact ScansElements.more first.skip mark later

theorem ScansMembers.skip {text rest : Bytes} {strict : Bool}
    (scans : ScansMembers checks text strict rest) :
    ScansMembers checks (skipWhitespace text) strict rest := by
  have same : lookMember (skipWhitespace text) = lookMember text := by
    rw [lookMember, skipWhitespace_skip]
    rfl
  cases scans with
  | stop look => exact ScansMembers.stop (same.trans look)
  | last look first mark => exact ScansMembers.last (same.trans look) first mark
  | more look first mark later => exact ScansMembers.more (same.trans look) first mark later

theorem lookValue_start {before : Bytes} (isSpace : IsSpace before) {c : UInt8}
    (visible : isSpaceByte c = false) (more : Bytes) :
    lookValue checks (before ++ c :: more) =
      if c = byte '{' then dueObject more
      else if c = byte '[' then dueArray more
      else if c = quoteByte then dueString more
      else if c = byte 't' then dueWord ['t', 'r', 'u', 'e'] (c :: more)
      else if c = byte 'f' then dueWord ['f', 'a', 'l', 's', 'e'] (c :: more)
      else if c = byte 'n' then dueWord ['n', 'u', 'l', 'l'] (c :: more)
      else if c = byte '-' ∨ isDigitByte c then dueNumber checks (c :: more)
      else .refused := by
  rw [lookValue, skipWhitespace_space isSpace, skipWhitespace_cons visible]

theorem dueWord_eq (chars : List Char) (rest : Bytes) :
    dueWord chars (word chars ++ rest) = .plain true rest := by
  have height : (word chars).length = chars.length := List.length_map _
  rw [dueWord, ← height, List.take_left, List.drop_left]
  exact if_pos rfl

theorem dueString_eq {raw : Bytes} (isChars : IsChars raw) (rest : Bytes) :
    dueString (raw ++ quoteByte :: rest) = .plain true rest := by
  rw [dueString, isChars.ends]
  exact congrArg (Due.plain · rest)
    (@decide_eq_true _ (Classical.propDecidable _) (isChars.closed rest))

theorem dueNumber_eq {text rest : Bytes} {tree : Tree} (isNumber : IsNumber text tree)
    (survives : Survives checks tree) (ends : EndsNumber rest) :
    dueNumber checks (text ++ rest) = .plain true rest := by
  have alive : ¬ (checks = true ∧ IsLeast (text ++ rest)) := by
    rintro ⟨isChecked, least⟩
    rw [isNumber.least ends least] at survives
    cases survives with
    | int apart => exact apart isChecked rfl
  obtain ⟨isBehind, isLiteral⟩ := isNumber.ends ends
  rw [dueNumber, if_neg alive, isBehind, isLiteral]
  exact congrArg (Due.plain · rest)
    (@decide_eq_true _ (Classical.propDecidable _) ⟨tree, isNumber⟩)

theorem lookMark_close {close : UInt8} (isMark : close = byte ']' ∨ close = byte '}')
    {space : Bytes} (isSpace : IsSpace space) (rest : Bytes) :
    lookMark close (space ++ close :: rest) = .stop true rest := by
  rw [lookMark, skipWhitespace_mark (isMark.elim (fun same => Or.inr (Or.inl same))
    fun same => Or.inr (Or.inr (Or.inl same))) isSpace]
  dsimp only
  rw [if_neg (by rcases isMark with rfl | rfl <;> decide), if_pos rfl]

theorem lookMark_next (close : UInt8) {space : Bytes} (isSpace : IsSpace space) (rest : Bytes) :
    lookMark close (space ++ byte ',' :: rest) = .comma rest := by
  rw [lookMark, skipWhitespace_mark (Or.inl rfl) isSpace]
  exact if_pos rfl

theorem lookMember_eq {before key behind : Bytes} (isBefore : IsSpace before) (isKey : IsChars key)
    (isBehind : IsSpace behind) (rest : Bytes) :
    lookMember (before ++ (quoted key ++ (behind ++ byte ':' :: rest))) = .value true rest := by
  have isName : skipWhitespace (before ++ (quoted key ++ (behind ++ byte ':' :: rest))) =
      quoteByte :: (key ++ quoteByte :: (behind ++ byte ':' :: rest)) := by
    rw [skipWhitespace_space isBefore, quoted, List.cons_append, skipWhitespace_cons (by decide),
      List.append_assoc]
    rfl
  obtain ⟨named, look, closed⟩ := lookMember_value isName
    (by rw [isKey.ends, skipWhitespace_mark (Or.inr (Or.inr (Or.inr rfl))) isBehind])
  rw [look, closed.mpr (isKey.closed _)]

mutual

theorem Writes.scans : ∀ {text before : Bytes} {tree : Tree} (rest : Bytes), Writes text tree →
    Survives checks tree → IsSpace before → EndsValue rest →
    Scans checks (before ++ (text ++ rest)) true rest
  | _, _, _, rest, .nullWord, _, isBefore, _ => Scans.plain (by
      have start := @lookValue_start checks _ isBefore (byte 'n') (by decide)
        (['u', 'l', 'l'].map byte ++ rest)
      rw [if_neg (by decide), if_neg (by decide), if_neg (by decide), if_neg (by decide),
        if_neg (by decide), if_pos rfl] at start
      exact start.trans (dueWord_eq ['n', 'u', 'l', 'l'] rest))
  | _, _, _, rest, .trueWord, _, isBefore, _ => Scans.plain (by
      have start := @lookValue_start checks _ isBefore (byte 't') (by decide)
        (['r', 'u', 'e'].map byte ++ rest)
      rw [if_neg (by decide), if_neg (by decide), if_neg (by decide), if_pos rfl] at start
      exact start.trans (dueWord_eq ['t', 'r', 'u', 'e'] rest))
  | _, _, _, rest, .falseWord, _, isBefore, _ => Scans.plain (by
      have start := @lookValue_start checks _ isBefore (byte 'f') (by decide)
        (['a', 'l', 's', 'e'].map byte ++ rest)
      rw [if_neg (by decide), if_neg (by decide), if_neg (by decide), if_neg (by decide),
        if_pos rfl] at start
      exact start.trans (dueWord_eq ['f', 'a', 'l', 's', 'e'] rest))
  | _, _, _, rest, .number isNumber, survives, isBefore, ends => Scans.plain (by
      have due := dueNumber_eq isNumber survives ends.number
      obtain ⟨c, more, rfl, visible, _, one, two, three, four, five, six, isFirst⟩ :=
        isNumber.start
      rw [List.cons_append] at due ⊢
      rw [lookValue_start isBefore visible, if_neg one, if_neg two, if_neg three, if_neg four,
        if_neg five, if_neg six, if_pos isFirst, due])
  | _, _, _, rest, .string isChars, _, isBefore, _ => Scans.plain (by
      rw [quoted, List.cons_append, List.append_assoc, lookValue_start isBefore (by decide),
        if_neg (by decide), if_neg (by decide), if_pos rfl]
      exact dueString_eq isChars rest)
  | _, _, _, rest, .emptyArray isSpace, _, isBefore, _ => Scans.plain (by
      rw [List.cons_append, List.append_assoc, lookValue_start isBefore (by decide),
        if_neg (by decide), if_pos rfl, dueArray, List.singleton_append,
        skipWhitespace_mark (Or.inr (Or.inl rfl)) isSpace]
      exact if_pos rfl)
  | _, _, _, rest, .array elements, survives, isBefore, _ => by
      obtain ⟨b, more, skipped, notEnd⟩ := elements.start (byte ']' :: rest)
      have each := survives.elements
      have scans := (WritesElements.scans rest elements each).skip
      rw [skipped] at scans
      refine Scans.array ?_ scans
      rw [List.cons_append, List.append_assoc, lookValue_start isBefore (by decide),
        if_neg (by decide), if_pos rfl, dueArray, List.singleton_append, skipped]
      exact if_neg notEnd
  | _, _, _, rest, .emptyObject isSpace, _, isBefore, _ => Scans.plain (by
      rw [List.cons_append, List.append_assoc, lookValue_start isBefore (by decide), if_pos rfl,
        dueObject, List.singleton_append,
        skipWhitespace_mark (Or.inr (Or.inr (Or.inl rfl))) isSpace]
      exact if_pos rfl)
  | _, _, _, rest, .object members, survives, isBefore, _ => by
      obtain ⟨more, skipped⟩ := members.start (byte '}' :: rest)
      have each := survives.members
      have scans := (WritesMembers.scans rest members each).skip
      rw [skipped] at scans
      refine Scans.object ?_ scans
      rw [List.cons_append, List.append_assoc, lookValue_start isBefore (by decide), if_pos rfl,
        dueObject, List.singleton_append, skipped]
      exact if_neg (by decide)

theorem WritesElements.scans : ∀ {text : Bytes} {elements : List Tree} (rest : Bytes),
    WritesElements text elements → (∀ element ∈ elements, Survives checks element) →
    ScansElements checks (text ++ byte ']' :: rest) true rest
  | _, _, rest, @WritesElements.last _ _ after _ isBefore inner isAfter, each => by
      have first := Writes.scans (after ++ byte ']' :: rest) inner (each _ List.mem_cons_self) isBefore
        (endsValue_mark (Or.inr (Or.inl rfl)) isAfter rest)
      rw [List.append_assoc, List.append_assoc]
      exact ScansElements.last first (lookMark_close (Or.inl rfl) isAfter rest)
  | _, _, rest, @WritesElements.more _ _ after more _ _ isBefore inner isAfter later, each => by
      have first := Writes.scans (after ++ byte ',' :: (more ++ byte ']' :: rest)) inner
        (each _ List.mem_cons_self) isBefore (endsValue_mark (Or.inl rfl) isAfter _)
      have others := WritesElements.scans rest later
        fun element isIn => each element (List.mem_cons_of_mem _ isIn)
      rw [List.append_assoc, List.append_assoc, List.append_assoc, List.cons_append]
      exact ScansElements.more first (lookMark_next _ isAfter _) others

theorem WritesMembers.scans : ∀ {text : Bytes} {members : List (Bytes × Tree)} (rest : Bytes),
    WritesMembers text members → (∀ member ∈ members, Survives checks member.2) →
    ScansMembers checks (text ++ byte '}' :: rest) true rest
  | _, _, rest, @WritesMembers.last _ _ _ _ _ after _ isBefore isKey isBehind isMiddle inner
      isAfter, each => by
      have first := Writes.scans (after ++ byte '}' :: rest) inner (each _ List.mem_cons_self)
        isMiddle (endsValue_mark (Or.inr (Or.inr rfl)) isAfter rest)
      simp only [List.append_assoc, List.cons_append]
      exact ScansMembers.last (lookMember_eq isBefore isKey isBehind _) first
        (lookMark_close (Or.inr rfl) isAfter rest)
  | _, _, rest, @WritesMembers.more _ _ _ _ _ after more _ _ isBefore isKey isBehind isMiddle
      inner isAfter later, each => by
      have first := Writes.scans (after ++ byte ',' :: (more ++ byte '}' :: rest)) inner
        (each _ List.mem_cons_self) isMiddle (endsValue_mark (Or.inl rfl) isAfter _)
      have others := WritesMembers.scans rest later
        fun member isIn => each member (List.mem_cons_of_mem _ isIn)
      simp only [List.append_assoc, List.cons_append]
      exact ScansMembers.more (lookMember_eq isBefore isKey isBehind _) first
        (lookMark_next _ isAfter _) others

end

end

end Rayzor.Json
