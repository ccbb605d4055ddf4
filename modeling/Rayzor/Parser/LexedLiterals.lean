import Rayzor.Parser.Scanned
import Rayzor.Parser.LiteralValues

/-!
Contract: every integer token is an integer literal.
-/

namespace Rayzor.Parser

open Library Library.Text

variable {source : List UInt8}

/-- A byte of ASCII as a character. -/
def charOf (b : UInt8) : Char := Char.ofNat b.toNat

def tokenText (source : List UInt8) (token : Token) : Text :=
  ((source.drop token.span.start).take (token.span.stop - token.span.start)).map charOf

/-- The bytes from one position to another. -/
def Spans (source : List UInt8) (start stop : Nat) (taken : List UInt8) : Prop :=
  source.drop start = taken ++ source.drop stop ∧ stop = start + taken.length

theorem Spans.append {start middle stop : Nat} {first second : List UInt8}
    (left : Spans source start middle first) (right : Spans source middle stop second) :
    Spans source start stop (first ++ second) := by
  constructor
  · rw [left.1, right.1, List.append_assoc]
  · rw [right.2, left.2, List.length_append, Nat.add_assoc]

theorem Spans.text {start stop : Nat} {taken : List UInt8} (spans : Spans source start stop taken)
    (kind : TokenKind) : tokenText source (Token.new kind start stop) = taken.map charOf := by
  unfold tokenText
  rw [Token.new_start, Token.new_stop, spans.1, spans.2, Nat.add_sub_cancel_left, List.take_left]

theorem spans_one {pos : Nat} {b : UInt8} (here : source[pos]? = some b) :
    Spans source pos (pos + 1) [b] := by
  obtain ⟨inside, same⟩ := List.getElem?_eq_some_iff.mp here
  exact ⟨by rw [List.drop_eq_getElem_cons inside, same]; rfl, rfl⟩

theorem spans_of_holdsAt {test : UInt8 → Bool} {pos : Nat} (holds : holdsAt source test pos = true) :
    ∃ b, test b = true ∧ Spans source pos (pos + 1) [b] := by
  obtain ⟨b, here, isTest⟩ := holdsAt_iff.mp holds
  exact ⟨b, isTest, spans_one here⟩

theorem spans_skipWhile (test : UInt8 → Bool) (pos : Nat) :
    ∃ taken, Spans source pos (skipWhile source test pos) taken ∧ ∀ b ∈ taken, test b = true := by
  refine ⟨(source.drop pos).takeWhile test, ⟨?_, rfl⟩, fun b member => ?_⟩
  case refine_2 => exact List.mem_takeWhile_imp member
  unfold skipWhile
  rw [← List.drop_drop]
  have whole := List.takeWhile_append_dropWhile (p := test) (l := source.drop pos)
  generalize (source.drop pos).takeWhile test = taken at whole
  rw [← whole, List.drop_left]

def LiteralSuffix.kind : LiteralSuffix → NumSuffix
  | .f64 => .float
  | _ => .int

theorem lexNumberSuffix_cases (pos : Nat) :
    lexNumberSuffix source pos = (none, pos) ∨
      ∃ suffix : LiteralSuffix, lexNumberSuffix source pos = (some suffix.kind, pos + 3) ∧
        ∃ taken, Spans source pos (pos + 3) taken ∧ taken.map charOf = suffix.spelling := by
  unfold lexNumberSuffix
  split
  next entry found =>
    have member := List.mem_of_find?_eq_some found
    have passes := List.find?_some found
    rw [Bool.and_eq_true, List.isPrefixOf_iff_prefix] at passes
    obtain ⟨⟨rest, shape⟩, -⟩ := passes
    have spelled : ∀ entry ∈ suffixes, (Utf8.encode entry.1.toList).length = 3 ∧
        ∃ suffix : LiteralSuffix, entry.2 = suffix.kind ∧
          (Utf8.encode entry.1.toList).map charOf = suffix.spelling := by
      intro entry member
      simp only [suffixes, List.mem_cons, List.not_mem_nil, or_false] at member
      rcases member with rfl | rfl | rfl | rfl
      · exact ⟨by decide, .i32, rfl, by decide⟩
      · exact ⟨by decide, .u32, rfl, by decide⟩
      · exact ⟨by decide, .i64, rfl, by decide⟩
      · exact ⟨by decide, .f64, rfl, by decide⟩
    obtain ⟨length, suffix, kind, isSpelling⟩ := spelled entry member
    refine Or.inr ⟨suffix, by rw [kind], _, ⟨?_, by rw [length]⟩, isSpelling⟩
    rw [← shape, ← List.drop_drop, ← shape, ← length, List.drop_left]
  next => exact Or.inl rfl

theorem suffixed_text {start pos : Nat} {front : List UInt8} (spans : Spans source start pos front) :
    ∃ suffix : Option LiteralSuffix,
      (lexNumberSuffix source pos).1 = suffix.map LiteralSuffix.kind ∧
        tokenText source (Token.new .intLit start (lexNumberSuffix source pos).2) =
          front.map charOf ++ (suffix.map LiteralSuffix.spelling).getD [] := by
  rcases @lexNumberSuffix_cases source pos with nothing | ⟨suffix, found, taken, behind, spelled⟩
  · refine ⟨none, by rw [nothing]; rfl, ?_⟩
    rw [nothing, spans.text]
    exact (List.append_nil _).symm
  · refine ⟨some suffix, by rw [found]; rfl, ?_⟩
    rw [found, (spans.append behind).text, List.map_append, spelled]
    rfl

theorem charOf_toNat (b : UInt8) : (charOf b).toNat = b.toNat := by
  have small := UInt8.toNat_lt b
  rw [charOf, Char.ofNat, dif_pos (Or.inl (by omega))]
  rfl

theorem isDigitByte_iff {b : UInt8} : isDigitByte b = true ↔ 48 ≤ b.toNat ∧ b.toNat ≤ 57 := by
  rw [isDigitByte, Bool.and_eq_true, decide_eq_true_eq, decide_eq_true_eq, UInt8.le_iff_toNat_le,
    UInt8.le_iff_toNat_le, byte_toNat, byte_toNat]
  rfl

theorem digitOf_digitByte {b : UInt8} (isDigit : isDigitByte b = true) :
    digitOf (charOf b) < 10 := by
  have inside := isDigitByte_iff.mp isDigit
  rw [digitOf_eq, charOf_toNat, if_pos inside]
  omega

theorem digitOf_hexByte {b : UInt8} (isHex : isHexByte b = true) : digitOf (charOf b) < 16 := by
  simp only [isHexByte, Bool.or_eq_true, Bool.and_eq_true, decide_eq_true_eq,
    UInt8.le_iff_toNat_le, byte_toNat, isDigitByte_iff] at isHex
  have low : 'f'.toNat = 102 := rfl
  have high : 'F'.toNat = 70 := rfl
  have lowFirst : 'a'.toNat = 97 := rfl
  have highFirst : 'A'.toNat = 65 := rfl
  rw [digitOf_eq, charOf_toNat]
  split_ifs <;> omega

theorem charOf_byte {b : UInt8} {c : Char} (small : c.toNat < 128) (same : (b == byte c) = true) :
    charOf b = c := by
  rw [beq_iff_eq] at same
  apply Char.toNat_inj.mp
  rw [charOf_toNat, same, byte_toNat]
  omega

def SpellsLiteral (text : Text) : Prop := ∃ literal : IntLiteral, literal.text = text

theorem finishNumber_intLit {start pos : Nat} {isFloat : Bool}
    (isInt : (finishNumber source start isFloat pos).kind = .intLit) :
    isFloat = false ∧ (lexNumberSuffix source pos).1 ≠ some .float ∧
      finishNumber source start isFloat pos =
        Token.new .intLit start (lexNumberSuffix source pos).2 := by
  unfold finishNumber at isInt ⊢
  dsimp only at isInt ⊢
  generalize (if holdsAt source isExponentMark pos then exponentDigits source (pos + 1)
    else none) = exponent at isInt ⊢
  cases exponent with
  | some digits => simp at isInt
  | none =>
      split_ifs at isInt ⊢ with float
      · cases isInt
      · simp only [Option.isSome_none, Bool.or_false, Bool.or_eq_true, beq_iff_eq, not_or,
          Bool.not_eq_true] at float
        exact ⟨float.1, float.2, rfl⟩

theorem kind_ne_float {suffix : Option LiteralSuffix}
    (notFloat : suffix.map LiteralSuffix.kind ≠ some .float) : suffix ≠ some .f64 := by
  intro isFloat
  rw [isFloat] at notFloat
  exact notFloat rfl

theorem suffix_first {test : UInt8 → Bool} {pos : Nat} (stopped : holdsAt source test pos = false)
    (isF : test (byte 'f') = true) : (lexNumberSuffix source pos).1 ≠ some .float := by
  intro isFloat
  rcases @lexNumberSuffix_cases source pos with nothing | ⟨suffix, found, taken, behind, spelled⟩
  · rw [nothing] at isFloat
    cases isFloat
  · rw [found] at isFloat
    cases suffix with
    | i32 | u32 | i64 => cases isFloat
    | f64 =>
        cases taken with
        | nil => cases spelled
        | cons b rest =>
            rw [List.map_cons] at spelled
            have isB : charOf b = 'f' := (List.cons.inj spelled).1
            have same : b = byte 'f' := by
              apply UInt8.toNat_inj.mp
              rw [← charOf_toNat, isB]
              rfl
            have here : source[pos]? = some (byte 'f') := by
              rw [← same, ← List.head?_drop, behind.1]
              rfl
            rw [holdsAt_iff.mpr ⟨_, here, isF⟩] at stopped
            cases stopped

theorem spells_hex {start : Nat} (isZero : source[start]? = some (byte '0'))
    (isMark : holdsAt source (fun b => b == byte 'x' || b == byte 'X') (start + 1) = true) :
    SpellsLiteral (tokenText source (Token.new .intLit start (lexNumberSuffix source
      (skipWhile source (fun b => isHexByte b || b == byte '_') (start + 2))).2)) := by
  obtain ⟨mark, isX, markSpans⟩ := spans_of_holdsAt isMark
  obtain ⟨body, bodySpans, isBody⟩ := @spans_skipWhile source
    (fun b => isHexByte b || b == byte '_') (start + 2)
  obtain ⟨suffix, kind, text⟩ := suffixed_text (((spans_one isZero).append markSpans).append bodySpans)
  have inside : start + 2 ≤ source.length := by
    have last := holdsAt_inside isMark
    omega
  have notFloat := suffix_first
    (skipWhile_spec source (fun b => isHexByte b || b == byte '_') inside).2.2.2 (by decide)
  rw [kind] at notFloat
  have upper : ∃ upper, [byte '0', mark].map charOf = Form.mark (.hex upper) := by
    rcases Bool.or_eq_true_iff.mp isX with lower | upper
    · exact ⟨false, by rw [List.map_cons, List.map_singleton, charOf_byte (by decide) lower]; rfl⟩
    · exact ⟨true, by rw [List.map_cons, List.map_singleton, charOf_byte (by decide) upper]; rfl⟩
  obtain ⟨upper, isForm⟩ := upper
  refine ⟨⟨.hex upper, body.map charOf, suffix, ?_, ?_, ?_⟩, ?_⟩
  · intro c member
    obtain ⟨b, inBody, rfl⟩ := List.mem_map.mp member
    rcases Bool.or_eq_true_iff.mp (isBody b inBody) with isHex | isSeparator
    · exact Or.inl (digitOf_hexByte isHex)
    · exact Or.inr (charOf_byte (by decide) isSeparator)
  · intro notHex
    exact absurd rfl (notHex upper)
  · exact fun isFloat => absurd isFloat (kind_ne_float notFloat)
  · rw [text, List.map_append, List.singleton_append, isForm]
    rfl

theorem digitOf_bit {b : UInt8} (isBit : (b == byte '0' || b == byte '1') = true) :
    digitOf (charOf b) < 2 := by
  rcases Bool.or_eq_true_iff.mp isBit with zero | one
  · rw [charOf_byte (by decide) zero]
    decide
  · rw [charOf_byte (by decide) one]
    decide

theorem spells_binary {start : Nat} (isZero : source[start]? = some (byte '0'))
    (isMark : holdsAt source (fun b => b == byte 'b' || b == byte 'B') (start + 1) = true)
    (isFirst : holdsAt source (fun b => b == byte '0' || b == byte '1') (start + 2) = true) :
    SpellsLiteral (tokenText source (Token.new .intLit start (lexNumberSuffix source
      (skipWhile source (fun b => b == byte '0' || b == byte '1' || b == byte '_')
        (start + 2))).2)) := by
  obtain ⟨mark, isB, markSpans⟩ := spans_of_holdsAt isMark
  obtain ⟨first, firstHere, firstBit⟩ := holdsAt_iff.mp isFirst
  obtain ⟨body, bodySpans, isBody⟩ := @spans_skipWhile source
    (fun b => b == byte '0' || b == byte '1' || b == byte '_') (start + 2)
  obtain ⟨suffix, kind, text⟩ := suffixed_text (((spans_one isZero).append markSpans).append bodySpans)
  have inside : start + 2 ≤ source.length := (holdsAt_inside isFirst).le
  have stopped := (skipWhile_spec source
    (fun b => b == byte '0' || b == byte '1' || b == byte '_') inside).2.2.2
  have starts : ∃ rest, body = first :: rest := by
    cases body with
    | nil =>
        rw [bodySpans.2, List.length_nil, Nat.add_zero,
          holdsAt_iff.mpr ⟨first, firstHere, by rw [firstBit, Bool.true_or]⟩] at stopped
        cases stopped
    | cons b rest =>
        have here : source[start + 2]? = some b := by
          rw [← List.head?_drop, bodySpans.1]
          rfl
        rw [firstHere, Option.some.injEq] at here
        exact ⟨rest, by rw [here]⟩
  obtain ⟨rest, shape⟩ := starts
  have upper : ∃ upper, [byte '0', mark].map charOf = Form.mark (.binary upper) := by
    rcases Bool.or_eq_true_iff.mp isB with lower | upper
    · exact ⟨false, by rw [List.map_cons, List.map_singleton, charOf_byte (by decide) lower]; rfl⟩
    · exact ⟨true, by rw [List.map_cons, List.map_singleton, charOf_byte (by decide) upper]; rfl⟩
  obtain ⟨upper, isForm⟩ := upper
  refine ⟨⟨.binary upper, body.map charOf, suffix, ?_, ?_, ?_⟩, ?_⟩
  · intro c member
    obtain ⟨b, inBody, rfl⟩ := List.mem_map.mp member
    rcases Bool.or_eq_true_iff.mp (isBody b inBody) with isBit | isSeparator
    · exact Or.inl (digitOf_bit isBit)
    · exact Or.inr (charOf_byte (by decide) isSeparator)
  · intro _
    exact ⟨charOf first, rest.map charOf, by rw [shape]; rfl, digitOf_bit firstBit⟩
  · exact fun _ => ⟨upper, rfl⟩
  · rw [text, List.map_append, List.singleton_append, isForm]
    rfl

theorem spells_plain {start : Nat} (isDigit : holdsAt source isDigitByte start = true)
    (notFloat : (lexNumberSuffix source (skipWhile source isGroupedDigit (start + 1))).1 ≠
      some .float) :
    SpellsLiteral (tokenText source (Token.new .intLit start (lexNumberSuffix source
      (skipWhile source isGroupedDigit (start + 1))).2)) := by
  obtain ⟨first, firstDigit, firstSpans⟩ := spans_of_holdsAt isDigit
  obtain ⟨body, bodySpans, isBody⟩ := @spans_skipWhile source isGroupedDigit (start + 1)
  obtain ⟨suffix, kind, text⟩ := suffixed_text (firstSpans.append bodySpans)
  rw [kind] at notFloat
  refine ⟨⟨.plain, (first :: body).map charOf, suffix, ?_, ?_, ?_⟩, ?_⟩
  · intro c member
    obtain ⟨b, inDigits, rfl⟩ := List.mem_map.mp member
    rcases List.mem_cons.mp inDigits with same | inBody
    · exact Or.inl (digitOf_digitByte (same ▸ firstDigit))
    · rcases Bool.or_eq_true_iff.mp (isBody b inBody) with isDigit | isSeparator
      · exact Or.inl (digitOf_digitByte isDigit)
      · exact Or.inr (charOf_byte (by decide) isSeparator)
  · intro _
    exact ⟨charOf first, body.map charOf, rfl, digitOf_digitByte firstDigit⟩
  · exact fun isFloat => absurd isFloat (kind_ne_float notFloat)
  · rw [text]
    rfl

def Spells (source : List UInt8) (token : Token) : Prop :=
  token.kind = .intLit → SpellsLiteral (tokenText source token)

theorem spells_of_kind {token : Token} (other : token.kind ≠ .intLit) : Spells source token :=
  fun isInt => absurd isInt other

theorem yields_any {α : Type} (outcome : Lexing α) :
    Yields (fun _ => True) (fun _ => True) outcome := by
  cases outcome <;> trivial

theorem spells_lexNumber {start : Nat} (isDigit : holdsAt source isDigitByte start = true) :
    Yields (fun _ => True) (Spells source) (lexNumber source start (start + 1)) := by
  obtain ⟨first, here, -⟩ := holdsAt_iff.mp isDigit
  have read : byteAt source start = .ok first := by rw [byteAt, here]
  rw [lexNumber, read]
  show Yields (fun _ => True) (Spells source) (if _ then _ else _)
  refine Yields.ite (fun hex => ?_) fun _ => Yields.ite (fun binary => ?_) fun _ => ?_
  · exact Yields.ok fun _ => spells_hex (hex.1 ▸ here) hex.2
  · exact Yields.ok fun _ => spells_binary (binary.1 ▸ here) binary.2.1 binary.2.2
  · dsimp only
    cases fractionEnd source (skipWhile source isGroupedDigit (start + 1)) with
    | some next => exact Yields.ok fun isInt => absurd (finishNumber_intLit isInt).1 (by decide)
    | none =>
        refine Yields.ok fun isInt => ?_
        obtain ⟨-, notFloat, shape⟩ := finishNumber_intLit isInt
        rw [shape]
        exact spells_plain isDigit notFloat

theorem keywordFromStr_ne_intLit {text : List UInt8} {kind : TokenKind}
    (found : keywordFromStr text = some kind) : kind ≠ .intLit := by
  obtain ⟨entry, isEntry, rfl⟩ := Option.map_eq_some_iff.mp found
  have every : ∀ keyword ∈ keywords, keyword.2 ≠ .intLit := by decide
  exact every entry (List.mem_of_find?_eq_some isEntry)

theorem choose_ne_intLit (next : UInt8) {choices : List (Char × TokenKind)} {otherwise : TokenKind}
    (others : .intLit ∉ otherwise :: choices.map Prod.snd) :
    (choose next choices otherwise).1 ≠ .intLit := by
  rw [List.mem_cons, not_or, List.mem_map, not_exists] at others
  unfold choose
  split
  next choice found =>
    intro same
    exact others.2 choice ⟨List.mem_of_find?_eq_some found, same⟩
  next => exact fun same => others.1 same.symm

theorem operator_ne_intLit {ch next second third : UInt8} {found : TokenKind × Nat}
    (isFound : operator ch next second third = some found) : found.1 ≠ .intLit := by
  unfold operator at isFound
  split at isFound
  next mark isMark =>
    have every : ∀ mark ∈ marks, mark.2 ≠ .intLit := by decide
    cases isFound
    exact every mark (List.mem_of_find?_eq_some isMark)
  next =>
    split at isFound
    next entry isEntry =>
      have every : ∀ entry ∈ operators, .intLit ∉ entry.2.2 :: entry.2.1.map Prod.snd := by decide
      cases isFound
      exact choose_ne_intLit next (every entry (List.mem_of_find?_eq_some isEntry))
    next =>
      unfold longOperator at isFound
      split_ifs at isFound <;> cases isFound <;>
        first | decide | exact choose_ne_intLit _ (by decide)

theorem spells_lexIdentifier (start pos : Nat) :
    Yields (fun _ => True) (Spells source) (lexIdentifier source start pos) := by
  unfold lexIdentifier
  refine Yields.bind (yields_any _) fun text _ => Yields.ok (spells_of_kind ?_)
  rw [Token.new_kind]
  cases found : keywordFromStr text with
  | none => decide
  | some kind => exact keywordFromStr_ne_intLit found

theorem spells_nextToken (start : Nat) :
    Yields (fun _ => True) (Spells source) (nextToken source start) := by
  unfold nextToken
  refine Yields.ite (fun regex => ?_) fun _ => Yields.ite (fun fraction => ?_) fun _ => ?_
  · exact Yields.bind (yields_any _) fun _ _ => Yields.ok (spells_of_kind (by simp))
  · exact Yields.ok fun isInt => absurd (finishNumber_intLit isInt).1 (by decide)
  · split
    next found isFound => exact Yields.ok (spells_of_kind (operator_ne_intLit isFound))
    next =>
      refine Yields.ite (fun quotes => ?_) fun _ => Yields.ite (fun dollar => ?_) fun _ =>
        Yields.ite (fun digit => ?_) fun _ => Yields.ite (fun letter => ?_) fun _ =>
        Yields.ite (fun high => ?_) fun _ => trivial
      · exact Yields.bind (yields_any _) fun _ _ => Yields.ok (spells_of_kind (by simp))
      · exact Yields.ok (spells_of_kind (by simp))
      · apply spells_lexNumber
        unfold peekAt at digit
        unfold holdsAt
        cases here : source[start]? with
        | none =>
            rw [here] at digit
            exact absurd digit (by decide)
        | some b =>
            rw [here] at digit
            exact digit
      · exact spells_lexIdentifier _ _
      · exact spells_lexIdentifier _ _

theorem spells_tokenAt (state : LexState) (pos : Nat) :
    Yields (fun _ => True) (Spells source) (tokenAt source state pos) := by
  unfold tokenAt
  refine Yields.ite (fun _ => ?_) fun _ => spells_nextToken pos
  exact Yields.bind (yields_any _) fun _ _ => Yields.ok (spells_of_kind (by simp))

/-- Rounds of the lexer keep every integer token a literal's. -/
theorem spells_tokenizeFrom (fuel : Nat) {state : LexState}
    (before : ∀ token ∈ state.tokens, Spells source token) :
    Yields (fun _ => True) (fun tokens => ∀ token ∈ tokens, Spells source token)
      (tokenizeFrom source fuel state) := by
  induction fuel generalizing state with
  | zero => trivial
  | succ fuel ih =>
      have one : Yields (fun _ => True) (fun round : Nat × Option LexState =>
          ∀ next, round.2 = some next → ∀ token ∈ next.tokens, Spells source token)
          (lexRound source state) := by
        unfold lexRound
        refine Yields.bind (yields_any _) fun pos _ => Yields.ite (fun _ => ?_) fun _ => ?_
        · exact Yields.ok fun next impossible => by cases impossible
        · refine Yields.bind (spells_tokenAt state pos) fun token spells => Yields.ok ?_
          intro next isNext other member
          cases isNext
          rcases List.mem_append.mp member with earlier | last
          · exact before other earlier
          · rw [List.mem_singleton.mp last]
            exact spells
      unfold tokenizeFrom
      refine Yields.bind one fun round tokens => ?_
      obtain ⟨pos, next⟩ := round
      cases next with
      | none =>
          refine Yields.ok fun token member => ?_
          rcases List.mem_append.mp member with earlier | last
          · exact before token earlier
          · rw [List.mem_singleton.mp last]
            exact spells_of_kind (by simp)
      | some next => exact ih (tokens next rfl)

/-- The integer tokens of a source are literals, and become expressions that mean their numbers
exactly where the digits are not cut or read in another radix and the number fits. -/
theorem intTokens_mean_iff (text : List Char) (tokens : List Token)
    (lexed : tokenize text = .ok tokens) (token : Token) (member : token ∈ tokens)
    (isInt : token.kind = .intLit) :
    ∃ literal : IntLiteral, literal.text = tokenText (Utf8.encode text) token ∧
      (∀ other : IntLiteral, other.text = tokenText (Utf8.encode text) token → other = literal) ∧
      (literal.Means (intLiteralKind (tokenText (Utf8.encode text) token)) ↔ literal.Kept) := by
  have start : ∀ token ∈ (startState text).tokens, Spells (Utf8.encode text) token :=
    fun token impossible => by cases impossible
  have spells := (spells_tokenizeFrom ((Utf8.encode text).length + 1) start).of_eq_ok lexed
  obtain ⟨literal, isText⟩ := spells token member isInt
  refine ⟨literal, isText, fun other same => ?_, ?_⟩
  · exact IntLiteral.text_injective (same.trans isText.symm)
  · rw [← isText]
    exact literal.means_iff_kept

def seven : IntLiteral where
  form := .plain
  body := ['7']
  suffix := none
  digits c member := by
    rw [List.mem_singleton.mp member]
    exact Or.inl (by decide)
  starts _ := ⟨'7', [], rfl, by decide⟩
  noFloat impossible := by cases impossible

theorem intTokens_mean_iff_seven : seven.Means (intLiteralKind ['7']) := by
  have lexed : tokenize ['7'] = .ok [Token.new .intLit 0 1, Token.new .eof 1 1] := by decide +kernel
  obtain ⟨literal, -, unique, means⟩ := intTokens_mean_iff ['7'] _ lexed (Token.new .intLit 0 1)
    List.mem_cons_self rfl
  have text : tokenText (Utf8.encode ['7']) (Token.new .intLit 0 1) = ['7'] := by decide +kernel
  rw [text] at unique means
  rw [unique seven rfl, means, ← unique seven rfl]
  refine ⟨by decide, ?_⟩
  rw [if_neg (by decide), if_pos (by decide)]
  rintro (impossible | impossible) <;> cases impossible

def hexWithF64 : IntLiteral where
  form := .hex false
  body := ['1', 'f', '6', '4']
  suffix := none
  digits c member := by
    simp only [List.mem_cons, List.not_mem_nil, or_false] at member
    rcases member with rfl | rfl | rfl | rfl <;> exact Or.inl (by decide)
  starts notHex := absurd rfl (notHex false)
  noFloat impossible := by cases impossible

/-- Its last three digits are taken for a suffix. -/
theorem hexDigits_cut :
    tokenize ['0', 'x', '1', 'f', '6', '4'] =
        .ok [Token.new .intLit 0 6, Token.new .eof 6 6] ∧
      hexWithF64.text = ['0', 'x', '1', 'f', '6', '4'] ∧ hexWithF64.value = 8036 ∧
      ¬hexWithF64.Means (intLiteralKind ['0', 'x', '1', 'f', '6', '4']) := by
  refine ⟨by decide +kernel, rfl, by decide, fun means => ?_⟩
  have kept := hexWithF64.means_iff_kept.mp means
  exact absurd kept.1 (by decide)

end Rayzor.Parser
