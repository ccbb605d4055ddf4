import Rayzor.Library.Outcome
import Rayzor.Json.Strings
import Rayzor.Json.Syntax

/-!
Contract: the texts that the parser lets through, by rules.
-/

namespace Rayzor.Json

open Library

/-- Behind the quote that no escape hides. A numbered escape hides four bytes. -/
def behindString : Bytes → Bytes
  | [] => []
  | b :: rest =>
      if b = quoteByte then rest
      else if b = backslashByte then
        match rest with
        | [] => []
        | letter :: more =>
            if letter = byte 'u' then behindString (more.drop 4) else behindString more
      else behindString rest
  termination_by text => text.length
  decreasing_by
    all_goals simp only [List.length_cons, List.length_drop]; omega

def IsClosedString (text : Bytes) : Prop :=
  ∃ raw, IsChars raw ∧ text = raw ++ quoteByte :: behindString text

def unsigned (text : Bytes) : Bytes :=
  if text.head? = some (byte '-') then text.tail else text

def fractionOf (text : Bytes) : Bytes := (unsigned text).dropWhile isDigitByte

def behindNumber (text : Bytes) : Bytes := skipExponent (skipFraction (fractionOf text))

def literalOf (text : Bytes) : Bytes := text.take (text.length - (behindNumber text).length)

/-- The digits in front, and whether they overflow a `u64`. -/
def magnitude (text : Bytes) : Nat × Bool :=
  ((unsigned text).takeWhile isDigitByte).foldl accumulate (0, false)

def isFloat (text : Bytes) : Bool :=
  startsFraction (fractionOf text) || startsExponent (skipFraction (fractionOf text)) ||
    (magnitude text).2

/-- The least number, whose magnitude no `i64` holds. -/
def IsLeast (text : Bytes) : Prop :=
  isFloat text = false ∧ text.head? = some (byte '-') ∧
    BitVec.ofNat 64 (magnitude text).1 = BitVec.intMin 64

/-- What stands where a value is due. -/
inductive Due where
  | plain (strict : Bool) (rest : Bytes)
  | object (members : Bytes)
  | array (elements : Bytes)
  | refused

def dueObject (text : Bytes) : Due :=
  match skipWhitespace text with
  | [] => .plain false []
  | mark :: rest => if mark = byte '}' then .plain true rest else .object (mark :: rest)

def dueArray (text : Bytes) : Due :=
  match skipWhitespace text with
  | [] => .array []
  | mark :: rest => if mark = byte ']' then .plain true rest else .array (mark :: rest)

def dueWord (chars : List Char) (text : Bytes) : Due :=
  if text.take chars.length = word chars then .plain true (text.drop chars.length)
  else .plain false text

section

open Classical

noncomputable def dueString (text : Bytes) : Due :=
  .plain (decide (IsClosedString text)) (behindString text)

noncomputable def dueNumber (checks : Bool) (text : Bytes) : Due :=
  if checks = true ∧ IsLeast text then .refused
  else .plain (decide (∃ tree, IsNumber (literalOf text) tree)) (behindNumber text)

/-- An absent value passes for one, and so does half a word. -/
noncomputable def lookValue (checks : Bool) (text : Bytes) : Due :=
  match skipWhitespace text with
  | [] => .plain false []
  | c :: more =>
      if c = byte '{' then dueObject more
      else if c = byte '[' then dueArray more
      else if c = quoteByte then dueString more
      else if c = byte 't' then dueWord ['t', 'r', 'u', 'e'] (c :: more)
      else if c = byte 'f' then dueWord ['f', 'a', 'l', 's', 'e'] (c :: more)
      else if c = byte 'n' then dueWord ['n', 'u', 'l', 'l'] (c :: more)
      else if c = byte '-' ∨ isDigitByte c then dueNumber checks (c :: more)
      else .refused

end

/-- What stands behind a value in a container. -/
inductive Mark where
  | stop (closed : Bool) (rest : Bytes)
  | comma (next : Bytes)

/-- Anything but a comma ends the container. -/
def lookMark (close : UInt8) (text : Bytes) : Mark :=
  match skipWhitespace text with
  | [] => .stop false []
  | mark :: next =>
      if mark = byte ',' then .comma next
      else if mark = close then .stop true next
      else .stop false (mark :: next)

/-- What stands where a member is due. -/
inductive Named where
  | stop (rest : Bytes)
  | value (strict : Bool) (text : Bytes)

open Classical in
/-- Without a name or a colon the object ends. The byte in the colon's place is gone. -/
noncomputable def lookMember (text : Bytes) : Named :=
  match skipWhitespace text with
  | [] => .stop []
  | c :: more =>
      if c ≠ quoteByte then .stop (c :: more)
      else
        match skipWhitespace (behindString more) with
        | [] => .stop []
        | colon :: after =>
            if colon ≠ byte ':' then .stop after
            else .value (decide (IsClosedString more)) after

section

variable (checks : Bool)

mutual

inductive Scans : Bytes → Bool → Bytes → Prop
  | plain {text rest : Bytes} {strict : Bool} : lookValue checks text = .plain strict rest →
      Scans text strict rest
  | object {text inner rest : Bytes} {strict : Bool} : lookValue checks text = .object inner →
      ScansMembers inner strict rest → Scans text strict rest
  | array {text inner rest : Bytes} {strict : Bool} : lookValue checks text = .array inner →
      ScansElements inner strict rest → Scans text strict rest

inductive ScansElements : Bytes → Bool → Bytes → Prop
  | last {text behind rest : Bytes} {strict closed : Bool} : Scans text strict behind →
      lookMark (byte ']') behind = .stop closed rest →
      ScansElements text (strict && closed) rest
  | more {text behind next rest : Bytes} {strict later : Bool} : Scans text strict behind →
      lookMark (byte ']') behind = .comma next → ScansElements next later rest →
      ScansElements text (strict && later) rest

inductive ScansMembers : Bytes → Bool → Bytes → Prop
  | stop {text rest : Bytes} : lookMember text = .stop rest → ScansMembers text false rest
  | last {text after behind rest : Bytes} {named strict closed : Bool} :
      lookMember text = .value named after → Scans after strict behind →
      lookMark (byte '}') behind = .stop closed rest →
      ScansMembers text (named && (strict && closed)) rest
  | more {text after behind next rest : Bytes} {named strict later : Bool} :
      lookMember text = .value named after → Scans after strict behind →
      lookMark (byte '}') behind = .comma next → ScansMembers next later rest →
      ScansMembers text (named && (strict && later)) rest

end

end

/-- The whole text passes, and not all of it by the grammar. -/
def Tolerated (checks : Bool) (text : Bytes) : Prop :=
  ∃ rest, Scans checks text false rest ∧ IsSpace rest

theorem behindString_cons (b : UInt8) (rest : Bytes) :
    behindString (b :: rest) =
      if b = quoteByte then rest
      else if b = backslashByte then
        match rest with
        | [] => []
        | letter :: more =>
            if letter = byte 'u' then behindString (more.drop 4) else behindString more
      else behindString rest := by
  rw [behindString.eq_def]
  rfl

theorem behindString_plain : ∀ {front : Bytes} (rest : Bytes), (∀ b ∈ front, isPlain b = true) →
    behindString (front ++ rest) = behindString rest
  | [], _, _ => rfl
  | b :: front, rest, plain => by
      have first := plain b List.mem_cons_self
      rw [isPlain, Bool.and_eq_true, bne_iff_ne, bne_iff_ne] at first
      rw [List.cons_append, behindString_cons, if_neg first.1, if_neg first.2]
      exact behindString_plain rest fun b isIn => plain b (List.mem_cons_of_mem _ isIn)

theorem isPlain_above {b : UInt8} (above : 128 ≤ b.toNat) : isPlain b = true := by
  rw [isPlain, Bool.and_eq_true, bne_iff_ne, bne_iff_ne]
  exact ⟨ne_of_above above (by decide), ne_of_above above (by decide)⟩

theorem continuations_above : ∀ (count : Nat) (bytes : Bytes),
    ∀ b ∈ bytes.take (Utf8.continuations count bytes), 128 ≤ b.toNat
  | 0, bytes => by simp [Utf8.continuations]
  | count + 1, [] => by simp
  | count + 1, first :: bytes => by
      intro b isIn
      rw [Utf8.continuations] at isIn
      split_ifs at isIn with continues
      · rw [List.take_succ_cons, List.mem_cons] at isIn
        rcases isIn with rfl | isLater
        · rw [Utf8.isContinuation, Bool.and_eq_true, decide_eq_true_eq] at continues
          exact UInt8.le_iff_toNat_le.mp continues.1
        · exact continuations_above count bytes b isLater
      · exact absurd isIn List.not_mem_nil

/-- No byte behind a character's first is one of ASCII. -/
theorem scan_above (lead : UInt8) (rest : Bytes) :
    ∀ b ∈ rest.take ((Utf8.scan lead rest).1 - 1), 128 ≤ b.toNat := by
  intro b isIn
  cases rest with
  | nil => exact absurd isIn (by simp)
  | cons second more =>
      rw [Utf8.scan] at isIn
      split_ifs at isIn with single fits
      · exact absurd isIn List.not_mem_nil
      · rw [Nat.add_comm 2, Nat.add_sub_assoc (by omega), List.take_succ_cons,
          List.mem_cons] at isIn
        rcases isIn with rfl | isLater
        · rw [Utf8.secondFits, Bool.and_eq_true, decide_eq_true_eq] at fits
          have bound := fits.1
          split_ifs at bound <;> omega
        · exact continuations_above _ more b isLater
      · exact absurd isIn List.not_mem_nil

theorem parseUnicodeEscape_low (rest : Bytes)
    (low : isLowSurrogate (parseUnicodeEscape rest).1 = true) :
    (parseUnicodeEscape rest).2 = rest.drop 4 := by
  rw [parseUnicodeEscape] at low ⊢
  dsimp only at low ⊢
  split_ifs at low ⊢ with high
  · exfalso
    revert low
    split
    · split_ifs with isNext inner
      · rw [isLowSurrogate, Bool.and_eq_true, decide_eq_true_eq, decide_eq_true_eq]
        omega
      all_goals
        show isLowSurrogate 0xFFFD = true → False
        decide
    · show isLowSurrogate 0xFFFD = true → False
      decide
  · rfl

theorem behindString_escape (rest : Bytes) :
    behindString (parseUnicodeEscape rest).2 = behindString (rest.drop 4) := by
  rw [parseUnicodeEscape]
  dsimp only
  split_ifs with high
  · split
    · rename_i slash u more isAfter
      rw [isAfter]
      split_ifs with isNext low
      · rw [isNext.1, isNext.2, behindString_cons, if_neg (by decide), if_pos rfl]
        show behindString (parseUnicodeEscape more).2 = if byte 'u' = byte 'u' then _ else _
        rw [if_pos rfl, parseUnicodeEscape_low more low]
      · rfl
      · rfl
    · rfl
  · rfl

theorem parseStringLoop_behind (result text : Bytes) :
    (parseStringLoop result text).2 = behindString text := by
  match text with
  | [] => rw [parseStringLoop, behindString]
  | b :: rest =>
      rw [parseStringLoop_cons, behindString_cons]
      split_ifs with isQuote isSlash ascii valid
      · rfl
      · cases rest with
        | nil => rfl
        | cons letter more =>
            dsimp only
            split_ifs with isUnicode
            · have within := length_parseUnicodeEscape more
              rw [parseStringLoop_behind, behindString_escape]
            · rw [parseStringLoop_behind]
      · rw [parseStringLoop_behind]
      · have whole := List.take_append_drop ((Utf8.scan b rest).1 - 1) rest
        rw [parseStringLoop_behind]
        conv_rhs => rw [← whole]
        exact (behindString_plain _ fun b isIn => isPlain_above (scan_above _ _ b isIn)).symm
      · rw [parseStringLoop_behind]
  termination_by text.length
  decreasing_by
    all_goals simp only [List.length_cons, List.length_drop] at *; omega

theorem parseString_behind (text : Bytes) : (parseString text).2 = behindString text := by
  have whole := List.takeWhile_append_dropWhile (p := isPlain) (l := text)
  have front : ∀ b ∈ text.takeWhile isPlain, isPlain b = true :=
    fun b isIn => List.mem_takeWhile_imp isIn
  rw [parseString]
  conv_rhs => rw [← whole, behindString_plain _ front]
  split
  · rename_i isEnd
    rw [isEnd, behindString]
  · rename_i b more isStop
    rw [isStop]
    split_ifs with isQuote
    · rw [behindString_cons, if_pos isQuote]
    · rw [parseStringSlow, parseStringLoop_behind]

theorem length_behindString (text : Bytes) : (behindString text).length ≤ text.length := by
  fun_induction behindString text
  all_goals
    simp only [List.length_nil, List.length_cons, List.length_drop] at *
    omega

theorem skipWhitespace_length (text : Bytes) : (skipWhitespace text).length ≤ text.length :=
  (List.dropWhile_suffix _).length_le

theorem length_of_skipped {text more : Bytes} {c : UInt8} (shape : skipWhitespace text = c :: more) :
    more.length < text.length := by
  have height := skipWhitespace_length text
  rw [shape, List.length_cons] at height
  exact height

theorem lookMember_value {text more after : Bytes} (isName : skipWhitespace text = quoteByte :: more)
    (isColon : skipWhitespace (behindString more) = byte ':' :: after) :
    ∃ named, lookMember text = .value named after ∧ (named = true ↔ IsClosedString more) := by
  refine ⟨_, ?_, @decide_eq_true_iff _ (Classical.propDecidable _)⟩
  rw [lookMember, isName]
  dsimp only
  rw [if_neg (not_not.mpr rfl), isColon]
  exact if_neg (not_not.mpr rfl)

theorem behindNumber_suffix (text : Bytes) : behindNumber text <:+ text := by
  have sign : unsigned text <:+ text := by
    rw [unsigned]
    split_ifs
    · exact List.tail_suffix text
    · exact List.suffix_rfl
  have digits : fractionOf text <:+ unsigned text := List.dropWhile_suffix _
  have fraction : ∀ rest, skipFraction rest <:+ rest := by
    intro rest
    rw [skipFraction]
    split_ifs
    · exact (List.dropWhile_suffix _).trans (List.tail_suffix rest)
    · exact List.suffix_rfl
  have exponent : ∀ rest, skipExponent rest <:+ rest := by
    intro rest
    rw [skipExponent]
    dsimp only
    split_ifs
    · exact (List.dropWhile_suffix _).trans
        ((List.tail_suffix _).trans (List.tail_suffix rest))
    · exact (List.dropWhile_suffix _).trans (List.tail_suffix rest)
    · exact List.suffix_rfl
  exact (exponent _).trans ((fraction _).trans (digits.trans sign))

theorem parseNumber_eq_ite (platform : Platform) (text : Bytes) :
    parseNumber platform text =
      if isFloat text = true then
        .ok (.float (platform.parseFloat (literalOf text)), behindNumber text)
      else if text.head? = some (byte '-') then
        if platform.overflowChecks = true ∧
            BitVec.ofNat 64 (magnitude text).1 = BitVec.intMin 64 then .error .overflow
        else .ok (.int (-BitVec.ofNat 64 (magnitude text).1), behindNumber text)
      else .ok (.int (BitVec.ofNat 64 (magnitude text).1), behindNumber text) := by
  have float : isFloat text = true ↔ startsFraction (fractionOf text) = true ∨
      startsExponent (skipFraction (fractionOf text)) = true ∨ (magnitude text).2 = true := by
    rw [isFloat, Bool.or_eq_true, Bool.or_eq_true, or_assoc]
  rw [parseNumber]
  simp only [float]
  rfl

theorem parseNumber_behind (platform : Platform) (text : Bytes) :
    (platform.overflowChecks = true ∧ IsLeast text ∧
        parseNumber platform text = .error .overflow) ∨
      (¬ (platform.overflowChecks = true ∧ IsLeast text) ∧
        ∃ value, parseNumber platform text = .ok (value, behindNumber text)) := by
  rw [parseNumber_eq_ite]
  split_ifs with float negative least
  · refine Or.inr ⟨fun both => ?_, _, rfl⟩
    exact Bool.false_ne_true (both.2.1.symm.trans float)
  · exact Or.inl ⟨least.1, ⟨Bool.not_eq_true _ ▸ float, negative, least.2⟩, rfl⟩
  · exact Or.inr ⟨fun both => least ⟨both.1, both.2.2.2⟩, _, rfl⟩
  · exact Or.inr ⟨fun both => negative both.2.2.1, _, rfl⟩

section

variable (checks : Bool)

/-- What the rules derive from a token. -/
def Due.Derives : Due → Bool → Bytes → Prop
  | .plain strict rest, strict', rest' => strict' = strict ∧ rest' = rest
  | .object inner, strict, rest => ScansMembers checks inner strict rest
  | .array inner, strict, rest => ScansElements checks inner strict rest
  | .refused, _, _ => False

/-- What the rules derive behind a value, with the loop of the container. -/
def Mark.Derives (joined : Bool → Bool) (loop : Bytes → Bool → Bytes → Prop) :
    Mark → Bool → Bytes → Prop
  | .stop closed rest, strict', rest' => strict' = joined closed ∧ rest' = rest
  | .comma next, strict, rest => ∃ later, loop next later rest ∧ strict = joined later

/-- The outcome of parsing: what the rules derive, and a failure only where they derive
nothing. -/
def Answers (size : Nat) (derives : Bool → Bytes → Prop) : Except Fault (Read Dynamic) → Prop :=
  Yields (fun _ => ∀ strict rest, ¬ derives strict rest) fun read =>
    read.2.length ≤ size ∧
      ∃ strict, ∀ strict' rest, derives strict' rest ↔ strict' = strict ∧ rest = read.2

variable {checks}

theorem scans_iff (text : Bytes) (strict : Bool) (rest : Bytes) :
    Scans checks text strict rest ↔ (lookValue checks text).Derives checks strict rest := by
  constructor
  · intro scans
    cases scans with
    | plain due => rw [due]; exact ⟨rfl, rfl⟩
    | object due members => rw [due]; exact members
    | array due elements => rw [due]; exact elements
  · intro derives
    cases due : lookValue checks text with
    | plain strict' rest' =>
        rw [due] at derives
        rw [derives.1, derives.2]
        exact Scans.plain due
    | object inner => rw [due] at derives; exact Scans.object due derives
    | array inner => rw [due] at derives; exact Scans.array due derives
    | refused => rw [due] at derives; exact derives.elim

theorem scansElements_iff {text behind : Bytes} {strict : Bool}
    (first : ∀ strict' rest, Scans checks text strict' rest ↔ strict' = strict ∧ rest = behind)
    (strict' : Bool) (rest : Bytes) :
    ScansElements checks text strict' rest ↔ (lookMark (byte ']') behind).Derives (strict && ·)
      (ScansElements checks) strict' rest := by
  constructor
  · intro scans
    cases scans with
    | last isFirst mark =>
        obtain ⟨rfl, rfl⟩ := (first _ _).mp isFirst
        rw [mark]
        exact ⟨rfl, rfl⟩
    | more isFirst mark later =>
        obtain ⟨rfl, rfl⟩ := (first _ _).mp isFirst
        rw [mark]
        exact ⟨_, later, rfl⟩
  · intro derives
    have isFirst := (first _ _).mpr ⟨rfl, rfl⟩
    cases mark : lookMark (byte ']') behind with
    | stop closed rest' =>
        rw [mark] at derives
        rw [derives.1, derives.2]
        exact ScansElements.last isFirst mark
    | comma next =>
        rw [mark] at derives
        obtain ⟨later, isLater, rfl⟩ := derives
        exact ScansElements.more isFirst mark isLater

theorem scansMembers_stop {text rest : Bytes} (look : lookMember text = .stop rest)
    (strict' : Bool) (rest' : Bytes) :
    ScansMembers checks text strict' rest' ↔ strict' = false ∧ rest' = rest := by
  constructor
  · intro scans
    cases scans with
    | stop same => exact ⟨rfl, (Named.stop.inj (same.symm.trans look))⟩
    | last other _ _ => exact absurd (other.symm.trans look) nofun
    | more other _ _ _ => exact absurd (other.symm.trans look) nofun
  · rintro ⟨rfl, rfl⟩
    exact ScansMembers.stop look

theorem scansMembers_iff {text after behind : Bytes} {named strict : Bool}
    (look : lookMember text = .value named after)
    (first : ∀ strict' rest, Scans checks after strict' rest ↔ strict' = strict ∧ rest = behind)
    (strict' : Bool) (rest : Bytes) :
    ScansMembers checks text strict' rest ↔ (lookMark (byte '}') behind).Derives
      (fun later => named && (strict && later)) (ScansMembers checks) strict' rest := by
  constructor
  · intro scans
    cases scans with
    | stop other => exact absurd (other.symm.trans look) nofun
    | last same isFirst mark =>
        obtain ⟨rfl, rfl⟩ := Named.value.inj (same.symm.trans look)
        obtain ⟨rfl, rfl⟩ := (first _ _).mp isFirst
        rw [mark]
        exact ⟨rfl, rfl⟩
    | more same isFirst mark later =>
        obtain ⟨rfl, rfl⟩ := Named.value.inj (same.symm.trans look)
        obtain ⟨rfl, rfl⟩ := (first _ _).mp isFirst
        rw [mark]
        exact ⟨_, later, rfl⟩
  · intro derives
    have isFirst := (first _ _).mpr ⟨rfl, rfl⟩
    cases mark : lookMark (byte '}') behind with
    | stop closed rest' =>
        rw [mark] at derives
        rw [derives.1, derives.2]
        exact ScansMembers.last look isFirst mark
    | comma next =>
        rw [mark] at derives
        obtain ⟨later, isLater, rfl⟩ := derives
        exact ScansMembers.more look isFirst mark isLater

end

section

variable (platform : Platform) (size : Nat)

theorem Answers.mono {count count' : Nat} {derives derives' : Bool → Bytes → Prop}
    {outcome : Except Fault (Read Dynamic)} (answers : Answers count derives outcome)
    (atMost : count ≤ count') (same : ∀ strict rest, derives' strict rest ↔ derives strict rest) :
    Answers count' derives' outcome := by
  refine (answers.weaken fun _ nothing strict rest => ?_).mono fun read isRead => ?_
  · rw [same]
    exact nothing strict rest
  · obtain ⟨within, strict, exactly⟩ := isRead
    refine ⟨le_trans within atMost, strict, fun strict' rest => ?_⟩
    rw [same]
    exact exactly strict' rest

theorem answers_ok {count : Nat} {derives : Bool → Bytes → Prop} {value : Dynamic} {rest : Bytes}
    {strict : Bool} (within : rest.length ≤ count)
    (exactly : ∀ strict' rest', derives strict' rest' ↔ strict' = strict ∧ rest' = rest) :
    Answers count derives (.ok (value, rest)) := Yields.ok ⟨within, strict, exactly⟩

theorem answers_word (chars : List Char) (value : Dynamic) (text : Bytes) :
    Answers text.length ((dueWord chars text).Derives platform.overflowChecks)
      (.ok (parseWord chars value text)) := by
  rw [parseWord, dueWord, word]
  by_cases isWord : text.take chars.length = chars.map byte
  · rw [if_pos isWord, if_pos isWord]
    exact answers_ok (by rw [List.length_drop]; omega) fun _ _ => Iff.rfl
  · rw [if_neg isWord, if_neg isWord]
    exact answers_ok le_rfl fun _ _ => Iff.rfl

theorem answers_string (text : Bytes) :
    Answers text.length ((dueString text).Derives platform.overflowChecks)
      (.ok (parseStringValue text)) := by
  rw [parseStringValue, parseString_behind, dueString]
  exact answers_ok (length_behindString text) fun _ _ => Iff.rfl

theorem answers_number (text : Bytes) :
    Answers text.length
      ((dueNumber platform.overflowChecks text).Derives platform.overflowChecks)
      (parseNumber platform text) := by
  rw [dueNumber]
  rcases parseNumber_behind platform text with ⟨checks, least, isError⟩ | ⟨other, value, isOk⟩
  · rw [if_pos ⟨checks, least⟩, isError]
    exact Yields.error fun _ _ derives => derives
  · rw [if_neg other, isOk]
    exact answers_ok ((behindNumber_suffix text).length_le) fun _ _ => Iff.rfl

/-- Behind a value: the end of the container, or its loop once more. -/
theorem answers_mark {joined : Bool → Bool} {loop : Bytes → Bool → Bytes → Prop} {close : UInt8}
    {behind : Bytes} {done : Dynamic} {again : Bytes → Except Fault (Read Dynamic)}
    (loops : ∀ next, next.length < behind.length → Answers next.length (loop next) (again next)) :
    Answers behind.length ((lookMark close behind).Derives joined loop)
      (match skipWhitespace behind with
        | [] => .ok (done, [])
        | mark :: next =>
            if mark = byte ',' then again next
            else if mark = close then .ok (done, next)
            else .ok (done, mark :: next)) := by
  rw [lookMark]
  have within := skipWhitespace_length behind
  cases shape : skipWhitespace behind with
  | nil => exact answers_ok (Nat.zero_le _) fun _ _ => Iff.rfl
  | cons mark next =>
      rw [shape] at within
      have shorter := length_of_skipped shape
      dsimp only
      split_ifs with isComma isClose
      · refine ((loops next shorter).weaken fun _ nothing strict rest derives => ?_).mono
          fun read isRead => ?_
        · obtain ⟨later, isLater, _⟩ := derives
          exact nothing later rest isLater
        · obtain ⟨atMost, strict, exactly⟩ := isRead
          refine ⟨by omega, joined strict, fun strict' rest => ?_⟩
          constructor
          · rintro ⟨later, isLater, rfl⟩
            obtain ⟨rfl, rfl⟩ := (exactly later rest).mp isLater
            exact ⟨rfl, rfl⟩
          · rintro ⟨rfl, rfl⟩
            exact ⟨strict, (exactly _ _).mpr ⟨rfl, rfl⟩, rfl⟩
      · exact answers_ok (Nat.le_of_lt shorter) fun _ _ => Iff.rfl
      · exact answers_ok within fun _ _ => Iff.rfl

mutual

/-- The parser returns exactly where the rules derive something, with the rest that they
leave over. -/
theorem parseValue_scans : ∀ (fuel : Nat) (text : Bytes), 3 * text.length + 1 ≤ fuel →
    Answers text.length (Scans platform.overflowChecks text) (parseValue platform size fuel text)
  | 0, _, short => absurd short (by omega)
  | fuel + 1, text, enough => by
      refine @Answers.mono _ _ _ _ _ ?_ le_rfl fun strict rest => scans_iff text strict rest
      rw [parseValue, lookValue]
      have within := skipWhitespace_length text
      cases shape : skipWhitespace text with
      | nil => exact answers_ok (Nat.zero_le _) fun _ _ => Iff.rfl
      | cons c more =>
          rw [shape] at within
          have shorter := length_of_skipped shape
          have same : ∀ {derives : Bool → Bytes → Prop} (strict : Bool) (rest : Bytes),
              derives strict rest ↔ derives strict rest := fun _ _ => Iff.rfl
          dsimp only
          split_ifs with isObject isArray isString isTrue isFalse isNull isNumber
          · exact (parseObject_scans fuel more (by omega)).mono (Nat.le_of_lt shorter) same
          · exact (parseArray_scans fuel more (by omega)).mono (Nat.le_of_lt shorter) same
          · exact (answers_string platform more).mono (Nat.le_of_lt shorter) same
          · exact (answers_word platform _ _ (c :: more)).mono within same
          · exact (answers_word platform _ _ (c :: more)).mono within same
          · exact (answers_word platform _ _ (c :: more)).mono within same
          · exact (answers_number platform (c :: more)).mono within same
          · exact Yields.error fun _ _ derives => derives

theorem parseObject_scans : ∀ (fuel : Nat) (text : Bytes), 3 * text.length + 3 ≤ fuel →
    Answers text.length ((dueObject text).Derives platform.overflowChecks)
      (parseObject platform size fuel text)
  | 0, _, short => absurd short (by omega)
  | fuel + 1, text, enough => by
      rw [parseObject, dueObject]
      have within := skipWhitespace_length text
      cases shape : skipWhitespace text with
      | nil => exact answers_ok (Nat.zero_le _) fun _ _ => Iff.rfl
      | cons c more =>
          rw [shape] at within
          have shorter := length_of_skipped shape
          dsimp only
          split_ifs with isClose
          · exact answers_ok (Nat.le_of_lt shorter) fun _ _ => Iff.rfl
          · exact (parseMembers_scans fuel [] (c :: more) (by omega)).mono within fun _ _ => Iff.rfl

theorem parseMembers_scans : ∀ (fuel : Nat) (fields : Fields) (text : Bytes),
    3 * text.length + 2 ≤ fuel →
    Answers text.length (ScansMembers platform.overflowChecks text)
      (parseMembers platform size fuel fields text)
  | 0, _, _, short => absurd short (by omega)
  | fuel + 1, fields, text, enough => by
      have within := skipWhitespace_length text
      have stops : ∀ {rest : Bytes} {value : Dynamic}, lookMember text = .stop rest →
          rest.length ≤ text.length →
          Answers text.length (ScansMembers platform.overflowChecks text) (.ok (value, rest)) :=
        fun look atMost => answers_ok atMost (scansMembers_stop look)
      rw [parseMembers]
      cases shape : skipWhitespace text with
      | nil => exact stops (by rw [lookMember, shape]) (Nat.zero_le _)
      | cons c more =>
          rw [shape] at within
          have shorter := length_of_skipped shape
          have name := length_behindString more
          have behindName := skipWhitespace_length (behindString more)
          dsimp only
          by_cases isName : c ≠ quoteByte
          · rw [if_pos isName]
            exact stops (by rw [lookMember, shape]; exact if_pos isName) within
          · rw [if_neg isName, parseStringKey, parseString_behind]
            cases colonShape : skipWhitespace (behindString more) with
            | nil =>
                refine stops ?_ (Nat.zero_le _)
                rw [lookMember, shape]
                dsimp only
                rw [if_neg isName, colonShape]
            | cons colon after =>
                have afterShorter := length_of_skipped colonShape
                dsimp only
                by_cases isColon : colon ≠ byte ':'
                · rw [if_pos isColon]
                  refine stops ?_ (by omega)
                  rw [lookMember, shape]
                  dsimp only
                  rw [if_neg isName, colonShape]
                  exact if_pos isColon
                · rw [if_neg isColon]
                  obtain ⟨named, look, _⟩ : ∃ named, lookMember text = .value named after ∧
                      (named = true ↔ IsClosedString more) :=
                    lookMember_value (not_not.mp isName ▸ shape) (not_not.mp isColon ▸ colonShape)
                  have first := parseValue_scans fuel after (by omega)
                  cases isRead : parseValue platform size fuel after with
                  | error fault =>
                      refine Yields.error fun strict rest scans => ?_
                      have nothing := first.of_eq_error isRead
                      cases scans with
                      | stop other => exact absurd (other.symm.trans look) nofun
                      | last same isFirst _ =>
                          rw [(Named.value.inj (same.symm.trans look)).2] at isFirst
                          exact nothing _ _ isFirst
                      | more same isFirst _ _ =>
                          rw [(Named.value.inj (same.symm.trans look)).2] at isFirst
                          exact nothing _ _ isFirst
                  | ok read =>
                      obtain ⟨value, behind⟩ := read
                      obtain ⟨atMost, strict, exactly⟩ := first.of_eq_ok isRead
                      have loops := fun next (isNext : next.length < behind.length) =>
                        parseMembers_scans fuel (setField fields (parseString more).1 value) next
                          (by dsimp only at atMost; omega)
                      refine (answers_mark loops).mono (by dsimp only at atMost; omega)
                        (scansMembers_iff look exactly)

theorem parseArray_scans : ∀ (fuel : Nat) (text : Bytes), 3 * text.length + 3 ≤ fuel →
    Answers text.length ((dueArray text).Derives platform.overflowChecks)
      (parseArray platform size fuel text)
  | 0, _, short => absurd short (by omega)
  | fuel + 1, text, enough => by
      rw [parseArray, dueArray]
      have within := skipWhitespace_length text
      cases shape : skipWhitespace text with
      | nil =>
          exact (parseElements_scans fuel [] [] (by rw [List.length_nil]; omega)).mono
            (Nat.zero_le _) fun _ _ => Iff.rfl
      | cons c more =>
          rw [shape] at within
          have shorter := length_of_skipped shape
          dsimp only
          split_ifs with isClose
          · exact answers_ok (Nat.le_of_lt shorter) fun _ _ => Iff.rfl
          · exact (parseElements_scans fuel [] (c :: more) (by omega)).mono within
              fun _ _ => Iff.rfl

theorem parseElements_scans : ∀ (fuel : Nat) (slots : List Dynamic) (text : Bytes),
    3 * text.length + 2 ≤ fuel →
    Answers text.length (ScansElements platform.overflowChecks text)
      (parseElements platform size fuel slots text)
  | 0, _, _, short => absurd short (by omega)
  | fuel + 1, slots, text, enough => by
      have first := parseValue_scans fuel text (by omega)
      rw [parseElements]
      cases isRead : parseValue platform size fuel text with
      | error fault =>
          refine Yields.error fun strict rest scans => ?_
          have nothing := first.of_eq_error isRead
          cases scans with
          | last isFirst _ => exact nothing _ _ isFirst
          | more isFirst _ _ => exact nothing _ _ isFirst
      | ok read =>
          obtain ⟨value, behind⟩ := read
          obtain ⟨atMost, strict, exactly⟩ := first.of_eq_ok isRead
          have loops := fun next (isNext : next.length < behind.length) =>
            parseElements_scans fuel (slots ++ [value]) next (by dsimp only at atMost; omega)
          exact (answers_mark loops).mono atMost (scansElements_iff exactly)

end

/-- A text derives at most one outcome. -/
theorem scans_unique {checks : Bool} {text rest rest' : Bytes} {strict strict' : Bool}
    (one : Scans checks text strict rest) (other : Scans checks text strict' rest') :
    strict = strict' ∧ rest = rest' := by
  have answers := parseValue_scans ⟨checks, fun _ => 0, fun _ => []⟩ 0 (3 * text.length + 1) text
    le_rfl
  cases isRead : parseValue ⟨checks, fun _ => 0, fun _ => []⟩ 0 (3 * text.length + 1) text with
  | error fault => exact absurd one (answers.of_eq_error isRead _ _)
  | ok read =>
      obtain ⟨_, _, exactly⟩ := answers.of_eq_ok isRead
      have isOne := (exactly _ _).mp one
      have isOther := (exactly _ _).mp other
      exact ⟨isOne.1.trans isOther.1.symm, isOne.2.trans isOther.2.symm⟩

theorem isSpace_of_skipped {text : Bytes} (skipped : skipWhitespace text = []) : IsSpace text :=
  List.dropWhile_eq_nil_iff.mp skipped

/-- The whole parser returns exactly on the texts that the rules derive to their end. -/
theorem accepts_iff (text : Bytes) :
    (∃ value, haxeJsonParse platform text = .ok value) ↔
      ∃ strict rest, Scans platform.overflowChecks text strict rest ∧ IsSpace rest := by
  have answers := parseValue_scans platform text.length (enoughFuel text) text
    (by rw [enoughFuel]; omega)
  by_cases isNil : text = []
  · rw [haxeJsonParse, if_pos isNil]
    refine iff_of_true ⟨_, rfl⟩ ⟨false, [], Scans.plain ?_, fun b isIn => nomatch isIn⟩
    rw [isNil, lookValue]
    rfl
  · rw [haxeJsonParse, if_neg isNil]
    cases isRead : parseValue platform text.length (enoughFuel text) text with
    | error fault =>
        refine iff_of_false (fun accepted => ?_) fun derived => ?_
        · obtain ⟨_, isOk⟩ := accepted
          exact absurd isOk nofun
        · obtain ⟨strict, rest, scans, _⟩ := derived
          exact answers.of_eq_error isRead strict rest scans
    | ok read =>
        obtain ⟨value, behind⟩ := read
        obtain ⟨_, strict, exactly⟩ := answers.of_eq_ok isRead
        show (∃ result, (match skipWhitespace behind with
          | [] => Except.ok value
          | c :: more => .error (invalidChar text.length c (c :: more))) = .ok result) ↔ _
        cases skipped : skipWhitespace behind with
        | nil =>
            exact iff_of_true ⟨value, rfl⟩
              ⟨strict, behind, (exactly _ _).mpr ⟨rfl, rfl⟩, isSpace_of_skipped skipped⟩
        | cons c more =>
            refine iff_of_false (fun accepted => ?_) fun derived => ?_
            · obtain ⟨_, isOk⟩ := accepted
              exact absurd isOk nofun
            · obtain ⟨_, rest, scans, isSpace⟩ := derived
              obtain ⟨_, rfl⟩ := (exactly _ _).mp scans
              have isEnd : skipWhitespace rest = [] := List.dropWhile_eq_nil_iff.mpr isSpace
              exact absurd (isEnd.symm.trans skipped) nofun

end

end Rayzor.Json
