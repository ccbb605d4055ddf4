import Rayzor.Parser.Gaps

/-!
Contract: what the scanners of the lexer take.

Owns: that a token starts where it is asked for, takes at least one byte, stops
inside the source and in front of no byte that continues a character, and that
the scanners fail in no way but with errors of the lexer (`tokenAt_spec`).

Does not own: white space and comments. That a byte of ASCII is a character of
its own is a hypothesis on the source.
-/

namespace Rayzor.Parser

open Library Library.Text

/-! ### Outcomes -/

/-- An error of the lexer, and no fault of the model. -/
def IsLexError (fault : Fault) : Prop := ∃ error, fault = .lex error

theorem yields_lexError {α : Type} {required : α → Prop} (message : String) (offset : Nat) :
    Yields IsLexError required (lexError message offset : Lexing α) :=
  ⟨⟨message, offset⟩, rfl⟩

variable (source : List UInt8)

/-- No byte that continues a character stands at the position. -/
def Clean (pos : Nat) : Prop := ∀ b, source[pos]? = some b → Utf8.isContinuation b = false

/-- Behind a byte of ASCII a character starts. -/
def AsciiApart : Prop :=
  ∀ pos b, source[pos]? = some b → b.toNat < 128 → Clean source (pos + 1)

/-- A scan from the position takes nothing, or stops in front of a character. -/
def Advances (pos stop : Nat) : Prop := pos ≤ stop ∧ stop ≤ source.length ∧ Clean source stop

/-- A scan from the position takes something, and stops in front of a character. -/
def Takes (pos stop : Nat) : Prop := pos < stop ∧ stop ≤ source.length ∧ Clean source stop

def TokenFrom (start : Nat) (token : Token) : Prop :=
  token.span.start = start ∧ Takes source start token.span.stop ∧ token.kind ≠ .eof

variable {source}

theorem Takes.of_advances {pos next stop : Nat} (first : pos < next)
    (later : Advances source next stop) : Takes source pos stop :=
  ⟨Nat.lt_of_lt_of_le first later.1, later.2.1, later.2.2⟩

theorem Takes.earlier {pos next stop : Nat} (first : pos ≤ next) (later : Takes source next stop) :
    Takes source pos stop :=
  ⟨Nat.lt_of_le_of_lt first later.1, later.2.1, later.2.2⟩

theorem takes_one (apart : AsciiApart source) {pos : Nat} {b : UInt8}
    (found : source[pos]? = some b) (ascii : b.toNat < 128) : Takes source pos (pos + 1) :=
  ⟨Nat.lt_succ_self _, lt_length_of_getElem? found, apart pos b found ascii⟩

/-! ### Tests for bytes of ASCII -/

def AsciiOnly (test : UInt8 → Bool) : Prop := ∀ b, test b = true → b.toNat < 128

theorem byte_toNat (c : Char) : (byte c).toNat = c.toNat % 256 := by
  rw [byte, UInt8.toNat_ofNat']

theorem asciiOnly_isDigitByte : AsciiOnly isDigitByte := by
  intro b passes
  rw [isDigitByte, Bool.and_eq_true, decide_eq_true_eq, decide_eq_true_eq, UInt8.le_iff_toNat_le,
    UInt8.le_iff_toNat_le, byte_toNat, byte_toNat] at passes
  have high : '9'.toNat = 57 := rfl
  omega

theorem asciiOnly_isAlphaByte : AsciiOnly isAlphaByte := by
  intro b passes
  simp only [isAlphaByte, Bool.or_eq_true, Bool.and_eq_true, decide_eq_true_eq,
    UInt8.le_iff_toNat_le, byte_toNat] at passes
  have low : 'z'.toNat = 122 := rfl
  have high : 'Z'.toNat = 90 := rfl
  omega

theorem asciiOnly_eq {c : Char} (ascii : c.toNat < 128) : AsciiOnly (· == byte c) := by
  intro b passes
  rw [beq_iff_eq.mp passes, byte_toNat]
  omega

theorem AsciiOnly.or {first second : UInt8 → Bool} (ofFirst : AsciiOnly first)
    (ofSecond : AsciiOnly second) : AsciiOnly fun b => first b || second b := by
  intro b passes
  rcases Bool.or_eq_true_iff.mp passes with holds | holds
  · exact ofFirst b holds
  · exact ofSecond b holds

theorem asciiOnly_isIdentByte : AsciiOnly isIdentByte :=
  (asciiOnly_isAlphaByte.or asciiOnly_isDigitByte).or (asciiOnly_eq (by decide))

theorem asciiOnly_isGroupedDigit : AsciiOnly isGroupedDigit :=
  asciiOnly_isDigitByte.or (asciiOnly_eq (by decide))

theorem asciiOnly_isHexByte : AsciiOnly isHexByte := by
  intro b passes
  simp only [isHexByte, Bool.or_eq_true, Bool.and_eq_true, decide_eq_true_eq,
    UInt8.le_iff_toNat_le, byte_toNat] at passes
  have low : 'f'.toNat = 102 := rfl
  have high : 'F'.toNat = 70 := rfl
  rcases passes with (digit | lower) | upper
  · exact asciiOnly_isDigitByte b digit
  · omega
  · omega

theorem advances_skipWhile (apart : AsciiApart source) {test : UInt8 → Bool}
    (ascii : AsciiOnly test) {pos : Nat} (inside : pos ≤ source.length)
    (clean : Clean source pos) : Advances source pos (skipWhile source test pos) := by
  obtain ⟨after, before, passes, _⟩ := skipWhile_spec source test inside
  refine ⟨after, before, ?_⟩
  rcases Nat.eq_or_lt_of_le after with same | further
  · rw [← same]
    exact clean
  · obtain ⟨b, found, holds⟩ :=
      holdsAt_iff.mp (passes (skipWhile source test pos - 1) (by omega) (by omega))
    have behind := apart _ b found (ascii b holds)
    rwa [Nat.sub_add_cancel (by omega)] at behind

theorem takes_of_holdsAt (apart : AsciiApart source) {test : UInt8 → Bool}
    (ascii : AsciiOnly test) {pos : Nat} (holds : holdsAt source test pos = true) :
    Takes source pos (pos + 1) := by
  obtain ⟨b, found, passes⟩ := holdsAt_iff.mp holds
  exact takes_one apart found (ascii b passes)

/-- Behind a byte of ASCII, over further ones. -/
theorem takes_skipWhile (apart : AsciiApart source) {test : UInt8 → Bool}
    (ascii : AsciiOnly test) {pos next : Nat} (first : Takes source pos next) :
    Takes source pos (skipWhile source test next) :=
  Takes.of_advances (Nat.lt_of_lt_of_le first.1 (Nat.le_refl _))
    (advances_skipWhile apart ascii first.2.1 first.2.2)

/-! ### Numbers and identifiers -/

theorem lexNumberSuffix_spec (apart : AsciiApart source) {pos : Nat}
    (inside : pos ≤ source.length) (clean : Clean source pos) :
    Advances source pos (lexNumberSuffix source pos).2 := by
  rw [lexNumberSuffix]
  split
  · rename_i suffix found
    have spelled : ∀ suffix ∈ suffixes, ∃ b, (Utf8.encode suffix.1.toList)[2]? = some b ∧
        b.toNat < 128 := by decide
    obtain ⟨b, isLast, ascii⟩ := spelled suffix (List.mem_of_find?_eq_some found)
    have both := List.find?_some found
    rw [Bool.and_eq_true] at both
    obtain ⟨rest, shape⟩ := List.isPrefixOf_iff_prefix.mp both.1
    have isByte : source[pos + 2]? = some b := by
      rw [← List.getElem?_drop, ← shape,
        List.getElem?_append_left (List.getElem?_eq_some_iff.mp isLast).1, isLast]
    have takes := takes_one apart isByte ascii
    exact ⟨by omega, takes.2.1, takes.2.2⟩
  · exact ⟨Nat.le_refl _, inside, clean⟩

theorem exponentDigits_spec {pos digits : Nat} (found : exponentDigits source pos = some digits) :
    pos ≤ digits ∧ holdsAt source isDigitByte digits = true := by
  rw [exponentDigits] at found
  split_ifs at found with signed digit digit
  · cases found
    exact ⟨Nat.le_succ _, digit⟩
  · cases found
    exact ⟨Nat.le_refl _, digit⟩

theorem finishNumber_spec (apart : AsciiApart source) {start pos : Nat} (isFloat : Bool)
    (first : Takes source start pos) : TokenFrom source start (finishNumber source start isFloat pos) := by
  have stops : ∀ {stop : Nat}, Takes source start stop →
      Takes source start (lexNumberSuffix source stop).2 := fun taken =>
    Takes.of_advances taken.1 (lexNumberSuffix_spec apart taken.2.1 taken.2.2)
  have token : ∀ {stop : Nat} (suffix : Option NumSuffix) (float : Bool), Takes source start stop →
      TokenFrom source start (if float || suffix == some .float then Token.new .floatLit start stop
        else Token.new .intLit start stop) := by
    intro stop suffix float taken
    split_ifs
    · exact ⟨rfl, taken, by simp⟩
    · exact ⟨rfl, taken, by simp⟩
  rw [finishNumber]
  apply token
  apply stops
  split
  · rename_i digits found
    split_ifs at found
    obtain ⟨after, digit⟩ := exponentDigits_spec found
    have one := takes_of_holdsAt apart asciiOnly_isDigitByte digit
    have before := first.1
    -- The first digit is inside, so the run of digits goes on behind it.
    obtain ⟨further, inside, passes, stopsAt⟩ :=
      skipWhile_spec source isGroupedDigit (Nat.le_of_lt (holdsAt_inside digit))
    have moved : digits < skipWhile source isGroupedDigit digits := by
      rcases Nat.eq_or_lt_of_le further with same | moved
      · rw [← same] at stopsAt
        obtain ⟨b, isByte, isDigit⟩ := holdsAt_iff.mp digit
        rw [holdsAt, isByte, Option.any_some, isGroupedDigit, isDigit] at stopsAt
        exact absurd stopsAt (by simp)
      · exact moved
    obtain ⟨b, isByte, holds⟩ := holdsAt_iff.mp
      (passes (skipWhile source isGroupedDigit digits - 1) (by omega) (by omega))
    have behind := apart _ b isByte (asciiOnly_isGroupedDigit b holds)
    rw [Nat.sub_add_cancel (by omega)] at behind
    exact ⟨by omega, inside, behind⟩
  · exact first

theorem fractionEnd_spec (apart : AsciiApart source) {pos next : Nat}
    (found : fractionEnd source pos = some next) : Takes source pos next := by
  rw [fractionEnd] at found
  split_ifs at found with dot
  have one := takes_of_holdsAt apart (asciiOnly_eq (by decide)) dot
  dsimp only at found
  split_ifs at found with digit trailing
  · cases found
    exact takes_skipWhile apart asciiOnly_isGroupedDigit one
  · cases found
    exact one

theorem lexNumber_spec (apart : AsciiApart source) {start : Nat}
    (first : Takes source start (start + 1)) :
    Yields IsLexError (TokenFrom source start) (lexNumber source start (start + 1)) := by
  have plain : ∀ {stop : Nat}, Takes source start stop →
      TokenFrom source start (Token.new .intLit start (lexNumberSuffix source stop).2) :=
    fun taken => ⟨rfl, Takes.of_advances taken.1
      (lexNumberSuffix_spec apart taken.2.1 taken.2.2), by simp⟩
  obtain ⟨b, isByte, read⟩ := byteAt_of_lt source first.2.1
  rw [lexNumber, read]
  show Yields IsLexError (TokenFrom source start) (if _ then _ else _)
  refine Yields.ite (fun hex => ?_) fun _ => Yields.ite (fun binary => ?_) fun _ => ?_
  · have letter := takes_of_holdsAt apart
      ((asciiOnly_eq (by decide)).or (asciiOnly_eq (by decide))) hex.2
    have isHex : AsciiOnly fun b => isHexByte b || b == byte '_' :=
      asciiOnly_isHexByte.or (asciiOnly_eq (by decide))
    exact Yields.ok (plain (Takes.earlier (Nat.le_succ _) (takes_skipWhile apart isHex letter)))
  · have letter := takes_of_holdsAt apart
      ((asciiOnly_eq (by decide)).or (asciiOnly_eq (by decide))) binary.2.1
    have isBinary : AsciiOnly fun b => b == byte '0' || b == byte '1' || b == byte '_' :=
      ((asciiOnly_eq (by decide)).or (asciiOnly_eq (by decide))).or (asciiOnly_eq (by decide))
    exact Yields.ok (plain (Takes.earlier (Nat.le_succ _) (takes_skipWhile apart isBinary letter)))
  · have digits := takes_skipWhile apart asciiOnly_isGroupedDigit first
    dsimp only
    cases found : fractionEnd source (skipWhile source isGroupedDigit (start + 1)) with
    | none => exact Yields.ok (finishNumber_spec apart false digits)
    | some next =>
        have fraction := fractionEnd_spec apart found
        exact Yields.ok (finishNumber_spec apart true
          (Takes.earlier (Nat.le_of_lt digits.1) fraction))

theorem sliceOf_of_le {start stop : Nat} (ordered : start ≤ stop) (inside : stop ≤ source.length) :
    sliceOf source start stop = .ok ((source.drop start).take (stop - start)) := by
  rw [sliceOf, if_pos ⟨ordered, inside⟩]

theorem lexIdentifier_spec (apart : AsciiApart source) {start pos : Nat}
    (first : Takes source start pos) :
    Yields IsLexError (TokenFrom source start) (lexIdentifier source start pos) := by
  have taken := takes_skipWhile apart asciiOnly_isIdentByte first
  rw [lexIdentifier, sliceOf_of_le (Nat.le_of_lt taken.1) taken.2.1]
  refine Yields.ok ⟨rfl, taken, ?_⟩
  rw [Token.new_kind]
  cases isKeyword : keywordFromStr _ with
  | none => simp
  | some kind => exact keywordFromStr_ne_eof isKeyword

/-! ### Operators -/

/-- A byte of ASCII other than the one that stands for the end. -/
def Visible (b : UInt8) : Prop := b ≠ 0 ∧ b.toNat < 128

/-- The last byte an operator takes behind its first is one of ASCII. -/
def LastVisible (next second third : UInt8) (more : Nat) : Prop :=
  more = 0 ∨ (more = 1 ∧ Visible next) ∨ (more = 2 ∧ Visible second) ∨ (more = 3 ∧ Visible third)

/-- The choices for a byte are bytes of ASCII, and no kind is that of the end. -/
def properChoices (choices : List (Char × TokenKind)) (otherwise : TokenKind) : Bool :=
  (choices.all fun choice => choice.1.toNat != 0 && decide (choice.1.toNat < 128) &&
    choice.2 != .eof) && otherwise != .eof

theorem choose_spec (next : UInt8) {choices : List (Char × TokenKind)} {otherwise : TokenKind}
    (proper : properChoices choices otherwise = true) :
    (choose next choices otherwise).1 ≠ .eof ∧
      ((choose next choices otherwise).2 = 0 ∨
        (choose next choices otherwise).2 = 1 ∧ Visible next) := by
  rw [properChoices, Bool.and_eq_true, bne_iff_ne] at proper
  rw [choose]
  split
  · rename_i choice found
    have same := List.find?_some found
    simp only [beq_iff_eq] at same
    have isProper := List.all_eq_true.mp proper.1 choice (List.mem_of_find?_eq_some found)
    simp only [Bool.and_eq_true, bne_iff_ne, ne_eq, decide_eq_true_eq] at isProper
    obtain ⟨⟨nonzero, ascii⟩, notEnd⟩ := isProper
    refine ⟨notEnd, Or.inr ⟨rfl, ?_, ?_⟩⟩
    · rw [← same]
      intro zero
      have value := byte_toNat choice.1
      rw [zero, Nat.mod_eq_of_lt (by omega)] at value
      exact nonzero value.symm
    · rw [← same, byte_toNat]
      omega
  · exact ⟨proper.2, Or.inl rfl⟩

/-- What an operator may be, given the bytes behind its first. -/
def ProperOperator (next second third : UInt8) (found : TokenKind × Nat) : Prop :=
  found.1 ≠ .eof ∧ LastVisible next second third found.2

theorem choose_proper {next : UInt8} (second third : UInt8) {choices : List (Char × TokenKind)}
    {otherwise : TokenKind} (proper : properChoices choices otherwise = true) :
    ProperOperator next second third (choose next choices otherwise) := by
  have spec := choose_spec next proper
  exact ⟨spec.1, spec.2.imp_right Or.inl⟩

theorem chooseFurther_one_proper {next second : UInt8} (third : UInt8) (isNext : Visible next)
    {choices : List (Char × TokenKind)} {otherwise : TokenKind}
    (proper : properChoices choices otherwise = true) :
    ProperOperator next second third (chooseFurther 1 second choices otherwise) := by
  have spec := choose_spec second proper
  refine ⟨spec.1, ?_⟩
  rw [chooseFurther]
  rcases spec.2 with none | ⟨one, isSecond⟩
  · exact Or.inr (Or.inl ⟨by rw [none], isNext⟩)
  · exact Or.inr (Or.inr (Or.inl ⟨by rw [one], isSecond⟩))

theorem chooseFurther_two_proper {next second third : UInt8} (isSecond : Visible second)
    {choices : List (Char × TokenKind)} {otherwise : TokenKind}
    (proper : properChoices choices otherwise = true) :
    ProperOperator next second third (chooseFurther 2 third choices otherwise) := by
  have spec := choose_spec third proper
  refine ⟨spec.1, ?_⟩
  rw [chooseFurther]
  rcases spec.2 with none | ⟨one, isThird⟩
  · exact Or.inr (Or.inr (Or.inl ⟨by rw [none], isSecond⟩))
  · exact Or.inr (Or.inr (Or.inr ⟨by rw [one], isThird⟩))

theorem visible_byte {b : UInt8} {c : Char} (same : b = byte c)
    (isVisible : byte c ≠ 0 ∧ (byte c).toNat < 128) : Visible b := same ▸ isVisible

theorem longOperator_spec {ch next second third : UInt8} {found : TokenKind × Nat}
    (isFound : longOperator ch next second third = some found) :
    ch.toNat < 128 ∧ ProperOperator next second third found := by
  have ascii : ∀ {c : Char}, ch = byte c → (byte c).toNat < 128 → ch.toNat < 128 :=
    fun same small => same ▸ small
  unfold longOperator at isFound
  split_ifs at isFound with dot dots question twice less twice greater twice thrice <;> cases isFound
  · exact ⟨ascii dot (by decide), by simp,
      Or.inr (Or.inr (Or.inl ⟨rfl, visible_byte dots.2 (by decide)⟩))⟩
  · exact ⟨ascii dot (by decide), by simp, Or.inl rfl⟩
  · exact ⟨ascii question (by decide),
      chooseFurther_one_proper third (visible_byte twice (by decide)) (by decide)⟩
  · exact ⟨ascii question (by decide), choose_proper second third (by decide)⟩
  · exact ⟨ascii less (by decide),
      chooseFurther_one_proper third (visible_byte twice (by decide)) (by decide)⟩
  · exact ⟨ascii less (by decide), choose_proper second third (by decide)⟩
  · exact ⟨ascii greater (by decide),
      chooseFurther_two_proper (visible_byte thrice (by decide)) (by decide)⟩
  · exact ⟨ascii greater (by decide),
      chooseFurther_one_proper third (visible_byte twice (by decide)) (by decide)⟩
  · exact ⟨ascii greater (by decide), choose_proper second third (by decide)⟩

theorem operator_spec {ch next second third : UInt8} {found : TokenKind × Nat}
    (isFound : operator ch next second third = some found) :
    ch.toNat < 128 ∧ ProperOperator next second third found := by
  rw [operator] at isFound
  split at isFound
  · rename_i mark isMark
    have proper : ∀ mark ∈ marks, (byte mark.1).toNat < 128 ∧ mark.2 ≠ .eof := by decide
    have isCh := List.find?_some isMark
    simp only [beq_iff_eq] at isCh
    have isProper := proper mark (List.mem_of_find?_eq_some isMark)
    cases isFound
    exact ⟨isCh ▸ isProper.1, isProper.2, Or.inl rfl⟩
  · split at isFound
    · rename_i entry isEntry
      have proper : ∀ entry ∈ operators, (byte entry.1).toNat < 128 ∧
          properChoices entry.2.1 entry.2.2 = true := by decide
      have isCh := List.find?_some isEntry
      simp only [beq_iff_eq] at isCh
      have isProper := proper entry (List.mem_of_find?_eq_some isEntry)
      cases isFound
      exact ⟨isCh ▸ isProper.1, choose_proper second third isProper.2⟩
    · exact longOperator_spec isFound

/-! ### Strings and regexes -/

theorem isQuoteByte_ascii {b : UInt8} (isQuote : isQuoteByte b = true) : b.toNat < 128 := by
  rw [isQuoteByte, Bool.or_eq_true, beq_iff_eq, beq_iff_eq] at isQuote
  rcases isQuote with rfl | rfl <;> decide

mutual

theorem lexString_spec (apart : AsciiApart source) : ∀ (fuel : Nat) (quote : UInt8) (start pos : Nat),
    quote.toNat < 128 → source.length - pos < fuel →
    Yields IsLexError (Takes source pos) (lexString source fuel quote start pos)
  | 0, _, _, _, _, enough => absurd enough (Nat.not_lt_zero _)
  | fuel + 1, quote, start, pos, ascii, enough => by
      rw [lexString]
      refine Yields.ite (fun _ => yields_lexError _ _) fun inside => ?_
      obtain ⟨b, isByte, read⟩ := byteAt_of_lt source (Nat.lt_of_not_le inside)
      rw [read]
      show Yields IsLexError (Takes source pos) (if b = backslashByte then _ else _)
      refine Yields.ite (fun _ => ?_) fun _ => Yields.ite (fun closes => ?_) fun _ =>
        Yields.ite (fun interpolates => ?_) fun _ => ?_
      · have further : pos < (if pos + 1 < source.length then pos + 2 else pos + 1) := by
          split_ifs <;> omega
        have later := lexString_spec apart fuel quote start
          (if pos + 1 < source.length then pos + 2 else pos + 1) ascii (by omega)
        exact later.mono fun stop => Takes.earlier (Nat.le_of_lt further)
      · exact Yields.ok (takes_one apart isByte (closes ▸ ascii))
      · have code := skipInterpolatedCode_spec apart fuel start 1 (pos + 2) (by omega)
        refine Yields.bind code fun next taken => ?_
        have moved := taken.1
        have later := lexString_spec apart fuel quote start next ascii (by omega)
        exact later.mono fun stop => Takes.earlier (by omega)
      · have later := lexString_spec apart fuel quote start (pos + 1) ascii (by omega)
        exact later.mono fun stop => Takes.earlier (Nat.le_succ _)

theorem skipInterpolatedCode_spec (apart : AsciiApart source) : ∀ (fuel start depth pos : Nat),
    source.length - pos < fuel →
    Yields IsLexError (Takes source pos) (skipInterpolatedCode source fuel start depth pos)
  | 0, _, _, _, enough => absurd enough (Nat.not_lt_zero _)
  | fuel + 1, start, depth, pos, enough => by
      rw [skipInterpolatedCode]
      refine Yields.ite (fun inside => ?_) fun _ => yields_lexError _ _
      obtain ⟨b, isByte, read⟩ := byteAt_of_lt source inside
      rw [read]
      have further : ∀ depth, Yields IsLexError (Takes source pos)
          (skipInterpolatedCode source fuel start depth (pos + 1)) := fun depth =>
        (skipInterpolatedCode_spec apart fuel start depth (pos + 1) (by omega)).mono
          fun stop => Takes.earlier (Nat.le_succ _)
      show Yields IsLexError (Takes source pos) (if b = byte '{' then _ else _)
      refine Yields.ite (fun _ => further _) fun _ => Yields.ite (fun closes => ?_) fun _ =>
        Yields.ite (fun quotes => ?_) fun _ => further _
      · refine Yields.ite (fun _ => ?_) fun _ => further _
        exact Yields.ok (takes_one apart isByte (closes ▸ by decide))
      · have string := lexString_spec apart fuel b pos (pos + 1) (isQuoteByte_ascii quotes) (by omega)
        refine Yields.bind string fun next taken => ?_
        have moved := taken.1
        have later := skipInterpolatedCode_spec apart fuel start depth next (by omega)
        exact later.mono fun stop => Takes.earlier (by omega)

end

theorem lexRegex_spec (apart : AsciiApart source) : ∀ (fuel start pos : Nat),
    source.length - pos < fuel →
    Yields IsLexError (Takes source pos) (lexRegex source fuel start pos)
  | 0, _, _, enough => absurd enough (Nat.not_lt_zero _)
  | fuel + 1, start, pos, enough => by
      rw [lexRegex]
      refine Yields.ite (fun _ => yields_lexError _ _) fun inside => ?_
      obtain ⟨b, isByte, read⟩ := byteAt_of_lt source (Nat.lt_of_not_le inside)
      rw [read]
      show Yields IsLexError (Takes source pos) (if b = backslashByte then _ else _)
      refine Yields.ite (fun _ => ?_) fun _ => Yields.ite (fun closes => ?_) fun _ => ?_
      · exact (lexRegex_spec apart fuel start (pos + 2) (by omega)).mono
          fun stop => Takes.earlier (by omega)
      · exact Yields.ok (takes_skipWhile apart asciiOnly_isAlphaByte
          (takes_one apart isByte (closes ▸ by decide)))
      · exact (lexRegex_spec apart fuel start (pos + 1) (by omega)).mono
          fun stop => Takes.earlier (Nat.le_succ _)

/-! ### Inline markup -/

variable (source) in
/-- A position behind the first one and inside the source, where there is one. -/
def Finds (pos : Nat) (found : Option Nat) : Prop :=
  ∀ stop, found = some stop → pos < stop ∧ stop ≤ source.length

theorem sliceOf_rest {pos : Nat} (inside : pos ≤ source.length) :
    sliceOf source pos source.length = .ok (source.drop pos) := by
  rw [sliceOf_of_le inside (Nat.le_refl _), List.take_of_length_le (by rw [List.length_drop])]

theorem startsAt_spec (mark : String) {pos : Nat} (inside : pos ≤ source.length) :
    Yields IsLexError
      (fun starts => starts = true → pos + (Utf8.encode mark.toList).length ≤ source.length)
      (startsAt source mark pos) := by
  rw [startsAt, sliceOf_rest inside]
  refine Yields.ok fun starts => ?_
  have short := (List.isPrefixOf_iff_prefix.mp starts).length_le
  rw [List.length_drop] at short
  omega

namespace Markup

theorem terminator_spec (mark : String) {pos start : Nat} (after : pos < start)
    (inside : start ≤ source.length) :
    Yields IsLexError (Finds source pos) (terminator source start mark) := by
  rw [terminator, sliceOf_rest inside]
  refine Yields.ok fun stop found => ?_
  obtain ⟨split, isSplit, rfl⟩ := Option.map_eq_some_iff.mp found
  have lengths := @length_of_splitFirst _ _ _ _ split.1 split.2 isSplit
  rw [List.length_drop] at lengths
  omega

variable (source) in
theorem quotedFrom_spec : ∀ (fuel : Nat) (close : UInt8) (pos : Nat), source.length - pos < fuel →
    Yields IsLexError (Finds source pos) (quotedFrom source fuel close pos)
  | 0, _, _, enough => absurd enough (Nat.not_lt_zero _)
  | fuel + 1, close, pos, enough => by
      rw [quotedFrom]
      refine Yields.ite (fun inside => ?_) fun _ => Yields.ok fun stop found =>
        absurd found (by simp)
      obtain ⟨b, isByte, read⟩ := byteAt_of_lt source inside
      rw [read]
      show Yields IsLexError (Finds source pos) (if b = close then _ else _)
      refine Yields.ite (fun _ => Yields.ok fun stop found => ?_) fun _ => ?_
      · cases found
        omega
      · have further : pos < pos + (if b = backslashByte then 2 else 1) := by
          split_ifs <;> omega
        have later := quotedFrom_spec fuel close (pos + if b = backslashByte then 2 else 1) (by omega)
        refine later.mono fun result finds stop found => ?_
        have bounds := finds stop found
        omega

theorem quoted_spec {start : Nat} (inside : start < source.length) :
    Yields IsLexError (Finds source start) (quoted source start) := by
  obtain ⟨b, _, read⟩ := byteAt_of_lt source inside
  rw [quoted, read]
  have later := quotedFrom_spec source (source.length + 1) b (start + 1) (by omega)
  refine Yields.mono later fun result finds stop found => ?_
  have bounds := finds stop found
  omega

theorem finds_further {pos : Nat} {part : Lexing (Option Nat)}
    {next : Nat → Lexing (Option Nat)} (first : Yields IsLexError (Finds source pos) part)
    (later : ∀ stop, pos < stop → stop ≤ source.length →
      Yields IsLexError (Finds source stop) (next stop)) :
    Yields IsLexError (Finds source pos)
      (part >>= fun found => match found with
        | some stop => next stop
        | none => pure none) := by
  refine Yields.bind first fun found finds => ?_
  cases found with
  | none => exact Yields.ok fun stop found => absurd found (by simp)
  | some stop =>
      obtain ⟨after, inside⟩ := finds stop rfl
      refine (later stop after inside).mono fun result finds stop' found => ?_
      have bounds := finds stop' found
      omega

variable (source) in
theorem bracesFrom_spec : ∀ (fuel depth pos : Nat), source.length - pos < fuel →
    Yields IsLexError (Finds source pos) (bracesFrom source fuel depth pos)
  | 0, _, _, enough => absurd enough (Nat.not_lt_zero _)
  | fuel + 1, depth, pos, enough => by
      rw [bracesFrom]
      refine Yields.ite (fun inside => ?_) fun _ => Yields.ok fun stop found =>
        absurd found (by simp)
      have again : ∀ stop, pos < stop → stop ≤ source.length →
          Yields IsLexError (Finds source stop) (bracesFrom source fuel depth stop) :=
        fun stop after _ => bracesFrom_spec fuel depth stop (by omega)
      have further : ∀ depth, Yields IsLexError (Finds source pos)
          (bracesFrom source fuel depth (pos + 1)) := fun depth =>
        (bracesFrom_spec fuel depth (pos + 1) (by omega)).mono
          fun result finds stop found => by have bounds := finds stop found; omega
      refine Yields.bind (startsAt_spec "//" (Nat.le_of_lt inside)) fun isLine lineFits => ?_
      refine Yields.ite (fun line => ?_) fun _ => ?_
      · exact finds_further (terminator_spec "\n" (by omega) (lineFits line)) again
      refine Yields.bind (startsAt_spec "/*" (Nat.le_of_lt inside)) fun isBlock blockFits => ?_
      refine Yields.ite (fun block => ?_) fun _ => ?_
      · exact finds_further (terminator_spec "*/" (by omega) (blockFits block)) again
      obtain ⟨b, isByte, read⟩ := byteAt_of_lt source inside
      rw [read]
      show Yields IsLexError (Finds source pos) (if isQuoteByte b = true then _ else _)
      refine Yields.ite (fun _ => finds_further (quoted_spec inside) again) fun _ =>
        Yields.ite (fun _ => further _) fun _ => Yields.ite (fun _ => ?_) fun _ => further _
      refine Yields.ite (fun _ => Yields.ok fun stop found => ?_) fun _ => further _
      cases found
      omega

theorem braces_spec (start : Nat) :
    Yields IsLexError (Finds source start) (braces source start) := by
  have later := bracesFrom_spec source (source.length + 1) 1 (start + 1) (by omega)
  refine Yields.mono later fun result finds stop found => ?_
  have bounds := finds stop found
  omega

theorem required_further {α : Type} {post : α → Prop} {pos start : Nat} {message : String}
    {part : Lexing (Option Nat)} {next : Nat → Lexing α}
    (first : Yields IsLexError (Finds source pos) part)
    (later : ∀ stop, pos < stop → stop ≤ source.length → Yields IsLexError post (next stop)) :
    Yields IsLexError post
      (part >>= fun found => required start message found >>= next) := by
  refine Yields.bind first fun found finds => ?_
  cases found with
  | none => exact yields_lexError message start
  | some stop =>
      obtain ⟨after, inside⟩ := finds stop rfl
      exact later stop after inside

theorem attributes_spec : ∀ (fuel start pos : Nat), pos ≤ source.length →
    source.length - pos < fuel →
    Yields IsLexError (fun stop => pos ≤ stop ∧ stop ≤ source.length ∧
        (stop < source.length → source[stop]? = some (byte '>')))
      (attributes source fuel start pos)
  | 0, _, _, _, enough => absurd enough (Nat.not_lt_zero _)
  | fuel + 1, start, pos, bounded, enough => by
      rw [attributes]
      refine Yields.ite (fun inside => ?_) fun outside => Yields.ok ⟨Nat.le_refl _, bounded,
        fun inside => absurd inside outside⟩
      have again : ∀ stop, pos < stop → stop ≤ source.length →
          Yields IsLexError (fun stop => pos ≤ stop ∧ stop ≤ source.length ∧
            (stop < source.length → source[stop]? = some (byte '>')))
            (attributes source fuel start stop) := fun stop after within =>
        (attributes_spec fuel start stop within (by omega)).mono fun result bounds =>
          ⟨by omega, bounds.2⟩
      obtain ⟨b, isByte, read⟩ := byteAt_of_lt source inside
      rw [read]
      show Yields IsLexError _ (if b = byte '>' then _ else _)
      refine Yields.ite (fun closes => Yields.ok ⟨Nat.le_refl _, bounded, fun _ => ?_⟩) fun _ =>
        Yields.ite (fun _ => required_further (quoted_spec inside) again) fun _ =>
        Yields.ite (fun _ => required_further (braces_spec pos) again) fun _ =>
          again (pos + 1) (Nat.lt_succ_self _) inside
      rw [isByte, closes]

/-- A tag ends behind its `>`. -/
theorem scanTag_spec (apart : AsciiApart source) (start : Nat) {pos : Nat}
    (opens : source[pos]? = some (byte '<')) :
    Yields IsLexError (fun tag => Takes source pos tag.2.2.2) (scanTag source start pos) := by
  have inside := lt_length_of_getElem? opens
  rw [scanTag]
  have nameFits : (if holdsAt source (· == byte '/') (pos + 1) = true then pos + 2 else pos + 1) ≤
      source.length := by
    split_ifs with closing
    · exact holdsAt_inside closing
    · exact inside
  have nameAfter : pos < (if holdsAt source (· == byte '/') (pos + 1) = true then pos + 2
      else pos + 1) := by
    split_ifs <;> omega
  generalize (if holdsAt source (· == byte '/') (pos + 1) = true then pos + 2 else pos + 1) = name
    at nameFits nameAfter ⊢
  obtain ⟨after, before, _, _⟩ := skipWhile_spec source isNameByte nameFits
  refine Yields.ite (fun _ => yields_lexError _ _) fun _ => ?_
  rw [sliceOf_of_le after before]
  show Yields IsLexError _ (attributes source (source.length + 1) start _ >>= _)
  refine Yields.bind (attributes_spec (source.length + 1) start _ before (by omega))
    fun stop bounds => ?_
  refine Yields.ite (fun _ => yields_lexError _ _) fun atEnd => Yields.ok ?_
  have closes := bounds.2.2 (by omega)
  exact Takes.earlier (by omega) (takes_one apart closes (by decide))

theorem scanFrom_spec (apart : AsciiApart source) : ∀ (fuel start : Nat)
    (root : Option (List UInt8)) (depth : Int) (pos : Nat), source.length - pos < fuel →
    Yields IsLexError (Takes source pos) (scanFrom source fuel start root depth pos)
  | 0, _, _, _, _, enough => absurd enough (Nat.not_lt_zero _)
  | fuel + 1, start, root, depth, pos, enough => by
      rw [scanFrom]
      refine Yields.ite (fun inside => ?_) fun _ => yields_lexError _ _
      have again : ∀ (root : Option (List UInt8)) (depth : Int) (stop : Nat), pos < stop →
          stop ≤ source.length →
          Yields IsLexError (Takes source pos) (scanFrom source fuel start root depth stop) :=
        fun root depth stop after _ =>
          (scanFrom_spec apart fuel start root depth stop (by omega)).mono
            fun result => Takes.earlier (Nat.le_of_lt after)
      refine Yields.bind (startsAt_spec "<!--" (Nat.le_of_lt inside)) fun isComment fits => ?_
      refine Yields.ite (fun comment => ?_) fun _ => ?_
      · exact required_further (terminator_spec "-->" (by omega) (fits comment)) (again root depth)
      refine Yields.bind (startsAt_spec "<![CDATA[" (Nat.le_of_lt inside)) fun isData dataFits => ?_
      refine Yields.ite (fun data => ?_) fun _ => ?_
      · exact required_further (terminator_spec "]]>" (by omega) (dataFits data)) (again root depth)
      obtain ⟨b, isByte, read⟩ := byteAt_of_lt source inside
      rw [read]
      show Yields IsLexError (Takes source pos) (if b = byte '{' then _ else _)
      refine Yields.ite (fun _ => required_further (braces_spec pos) (again root depth)) fun _ =>
        Yields.ite (fun opens => ?_) fun _ => again root depth (pos + 1) (Nat.lt_succ_self _) inside
      refine Yields.bind (scanTag_spec apart start (opens ▸ isByte)) fun tag takes => ?_
      obtain ⟨name, closing, empty, stop⟩ := tag
      show Yields IsLexError (Takes source pos) (if name = root.getD name then _ else _)
      refine Yields.ite (fun _ => ?_) fun _ => again _ _ stop takes.1 takes.2.1
      exact Yields.ite (fun _ => Yields.ok takes) fun _ => again _ _ stop takes.1 takes.2.1

end Markup

/-! ### One token -/

theorem takes_of_lastVisible (apart : AsciiApart source) {start more : Nat}
    (first : Takes source start (start + 1))
    (visible : LastVisible (peekAt source (start + 1)) (peekAt source (start + 1 + 1))
      (peekAt source (start + 1 + 2)) more) : Takes source start (start + 1 + more) := by
  have behind : ∀ {offset : Nat}, Visible (peekAt source offset) → Takes source offset (offset + 1) :=
    fun isVisible => takes_one apart (getElem?_of_peekAt rfl isVisible.1) isVisible.2
  rcases visible with rfl | ⟨rfl, isVisible⟩ | ⟨rfl, isVisible⟩ | ⟨rfl, isVisible⟩
  · exact first
  · exact Takes.earlier (by omega) (behind isVisible)
  · exact Takes.earlier (by omega) (behind isVisible)
  · exact Takes.earlier (by omega) (behind isVisible)

/-- A character of more than one byte, from its first byte on. -/
theorem takes_character {start : Nat} (inside : start < source.length) :
    Takes source start (skipWhile source Utf8.isContinuation (start + 1)) := by
  obtain ⟨after, before, _, stops⟩ :=
    skipWhile_spec source Utf8.isContinuation (Nat.succ_le_of_lt inside)
  refine ⟨after, before, fun b found => ?_⟩
  rw [holdsAt, found, Option.any_some] at stops
  exact stops

theorem nextToken_spec (apart : AsciiApart source) {start : Nat} (inside : start < source.length) :
    Yields IsLexError (TokenFrom source start) (nextToken source start) := by
  obtain ⟨ch, isCh, _⟩ := byteAt_of_lt source inside
  have peeked : peekAt source start = ch := by rw [peekAt, isCh]; rfl
  have one : ch.toNat < 128 → Takes source start (start + 1) := takes_one apart isCh
  rw [nextToken, peeked]
  refine Yields.ite (fun regex => ?_) fun _ => Yields.ite (fun fraction => ?_) fun _ => ?_
  · have scanned := lexRegex_spec apart (source.length + 1) start (start + 1 + 1) (by omega)
    refine Yields.bind scanned fun stop taken => Yields.ok ⟨rfl, ?_, by simp⟩
    exact Takes.earlier (by omega) taken
  · have dot := one (by rw [fraction.1]; decide)
    exact Yields.ok (finishNumber_spec apart true
      (takes_skipWhile apart asciiOnly_isGroupedDigit dot))
  · cases isFound : operator ch (peekAt source (start + 1)) (peekAt source (start + 1 + 1))
      (peekAt source (start + 1 + 2)) with
    | some found =>
        obtain ⟨ascii, proper, visible⟩ := operator_spec isFound
        exact Yields.ok ⟨rfl, takes_of_lastVisible apart (one ascii) visible, proper⟩
    | none =>
        refine Yields.ite (fun quotes => ?_) fun _ => Yields.ite (fun dollar => ?_) fun _ =>
          Yields.ite (fun digit => ?_) fun _ => Yields.ite (fun letter => ?_) fun _ =>
          Yields.ite (fun high => ?_) fun _ => yields_lexError _ _
        · have scanned := lexString_spec apart (source.length + 1) ch start (start + 1)
            (isQuoteByte_ascii quotes) (by omega)
          refine Yields.bind scanned fun stop taken => Yields.ok ⟨rfl, ?_, by simp⟩
          exact Takes.earlier (Nat.le_succ _) taken
        · have sign := one (by rw [dollar]; decide)
          exact Yields.ok ⟨rfl, takes_skipWhile apart asciiOnly_isIdentByte sign, by simp⟩
        · exact lexNumber_spec apart (one (asciiOnly_isDigitByte ch digit))
        · refine lexIdentifier_spec apart (one ?_)
          rcases letter with isAlpha | underscore
          · exact asciiOnly_isAlphaByte ch isAlpha
          · rw [underscore]
            decide
        · exact lexIdentifier_spec apart (takes_character inside)

theorem tokenAt_spec (apart : AsciiApart source) (state : LexState) {pos : Nat}
    (inside : pos < source.length) :
    Yields IsLexError (TokenFrom source pos) (tokenAt source state pos) := by
  rw [tokenAt]
  refine Yields.ite (fun _ => ?_) fun _ => nextToken_spec apart inside
  have scanned := Markup.scanFrom_spec apart (source.length + 1) pos none 0 pos (by omega)
  exact Yields.bind scanned fun stop taken => Yields.ok ⟨rfl, taken, by simp⟩

theorem asciiApart_encode (text : List Char) : AsciiApart (Utf8.encode text) :=
  fun _ _ found ascii _ following => Utf8.lead_after_ascii found ascii following

end Rayzor.Parser
