import Rayzor.Parser.Scanned

/-!
Contract: the tokens of a source partition it.
-/

namespace Rayzor.Parser

open Library Library.Text

/-- From the position on, tokens with gaps between them, up to a single end token.
Each starts and stops between two characters. -/
inductive Tiling (text : List Char) : Nat → List Token → Prop
  | eof {pos : Nat} : Gap (Utf8.encode text) pos (Utf8.encode text).length →
      Tiling text pos
        [Token.new .eof (Utf8.encode text).length (Utf8.encode text).length]
  | token {pos : Nat} {token : Token} {rest : List Token} :
      Gap (Utf8.encode text) pos token.span.start →
      token.span.start < token.span.stop → Utf8.Boundary text token.span.start →
      Utf8.Boundary text token.span.stop → token.kind ≠ .eof →
      Tiling text token.span.stop rest → Tiling text pos (token :: rest)

/-- The bytes of a leading byte order mark. -/
def bomLength (text : List Char) : Nat := if text.head? = some (Char.ofNat 0xFEFF) then 3 else 0

/-- Where there are tokens, they tile the text behind its byte order mark; where
there are none, the lexer says why. -/
structure Partitioned (text : List Char) (outcome : Lexing (List Token)) : Prop where
  tiles : ∀ tokens, outcome = .ok tokens → Tiling text (bomLength text) tokens
  total : ∀ fault, outcome = .error fault → IsLexError fault

def Round (source : List UInt8) (state next : LexState) : Prop :=
  ∃ pos, lexRound source state = .ok (pos, some next)

/-- Wherever the lexer stands before a block comment that never closes, of which
its scan leaves the last byte, that byte makes no token. -/
def CommentsEnd (text : List Char) : Prop :=
  ∀ state, Relation.ReflTransGen (Round (Utf8.encode text)) (startState text) state →
    ∀ opening, Gap (Utf8.encode text) state.pos opening → Leaves (Utf8.encode text) opening →
      ∀ token, nextToken (Utf8.encode text) ((Utf8.encode text).length - 1) ≠ .ok token

variable {source : List UInt8}

theorem Closes.clean (apart : AsciiApart source) {depth pos stop : Nat}
    (closes : Closes source depth pos stop) : Clean source stop := by
  induction closes with
  | opens _ _ later => exact later
  | ends marked => exact apart _ _ marked.2 (by decide)
  | inner _ _ _ later => exact later
  | passes _ _ _ _ later => exact later

/-- A gap from a character on leads to a character. -/
theorem Gap.clean (apart : AsciiApart source) {pos stop : Nat} (gap : Gap source pos stop)
    (clean : Clean source pos) : Clean source stop := by
  induction gap with
  | done => exact clean
  | space isSpace _ later =>
      obtain ⟨b, isByte, holds⟩ := holdsAt_iff.mp isSpace
      refine later (apart _ b isByte ?_)
      simp only [isSpaceByte, Bool.or_eq_true, beq_iff_eq] at holds
      rcases holds with (((rfl | rfl) | rfl) | rfl) | rfl <;> decide
  | line _ ends _ later =>
      refine later fun b found => ?_
      have broken := ends.2.2.2 (lt_length_of_getElem? found)
      rw [found] at broken
      cases broken
      decide
  | block _ closes _ later => exact later (closes.clean apart)
  | openBlock =>
      intro b found
      exact absurd (lt_length_of_getElem? found) (Nat.lt_irrefl _)

theorem lexRound_eq {state : LexState} {stop : Nat}
    (scanned : skipWhitespaceAndComments source (source.length + 1) state.pos = .ok stop) :
    lexRound source state =
      if source.length ≤ stop then .ok (stop, none)
      else (tokenAt source state stop).map fun token => (stop, some (takeToken state token)) := by
  rw [lexRound, scanned]
  show (if source.length ≤ stop then _ else _) = _
  split_ifs
  · rfl
  · cases tokenAt source state stop <;> rfl

/-- At the last byte no markup starts. -/
theorem tokenAt_last {state : LexState} {pos : Nat} (last : pos + 1 = source.length) :
    tokenAt source state pos = nextToken source pos := by
  have noLetter : ¬ isAlphaByte (peekAt source (pos + 1)) = true := by
    rw [peekAt_beyond (Nat.le_of_eq last.symm)]
    decide
  rw [tokenAt]
  exact if_neg fun both => noLetter both.2.2

/-- A state inside the source, in front of a character. -/
def Proper (source : List UInt8) (state : LexState) : Prop :=
  state.pos ≤ source.length ∧ Clean source state.pos

theorem round_proper (apart : AsciiApart source) {state next : LexState}
    (proper : Proper source state) (round : Round source state next) :
    Proper source next ∧ state.pos < next.pos ∧
      ∃ token, next.tokens = state.tokens ++ [token] ∧ next.pos = token.span.stop := by
  obtain ⟨stop, scanned, after, inside, _⟩ := skipWhitespaceAndComments_spec
    source (source.length + 1) state.pos proper.1 (by omega)
  obtain ⟨pos, isRound⟩ := round
  rw [lexRound_eq scanned] at isRound
  by_cases atEnd : source.length ≤ stop
  · rw [if_pos atEnd] at isRound
    cases isRound
  rw [if_neg atEnd] at isRound
  have takes := tokenAt_spec apart state (Nat.lt_of_not_le atEnd)
  cases isToken : tokenAt source state stop with
  | error fault =>
      rw [isToken] at isRound
      cases isRound
  | ok token =>
      have spec := takes.of_eq_ok isToken
      rw [isToken] at isRound
      cases isRound
      have advances := spec.2.1
      exact ⟨⟨advances.2.1, advances.2.2⟩, Nat.lt_of_le_of_lt after advances.1, token, rfl, rfl⟩

variable {text : List Char}

theorem tokenizeFrom_tiles (ends : CommentsEnd text) : ∀ (fuel : Nat) (state : LexState),
    Relation.ReflTransGen (Round (Utf8.encode text)) (startState text) state →
    Proper (Utf8.encode text) state → (Utf8.encode text).length - state.pos < fuel →
    Yields IsLexError (fun tokens => ∃ later, tokens = state.tokens ++ later ∧
        Tiling text state.pos later)
      (tokenizeFrom (Utf8.encode text) fuel state)
  | 0, _, _, _, enough => absurd enough (Nat.not_lt_zero _)
  | fuel + 1, state, reached, proper, enough => by
      have apart := asciiApart_encode text
      obtain ⟨stop, scanned, after, inside, result⟩ := skipWhitespaceAndComments_spec
        (Utf8.encode text) ((Utf8.encode text).length + 1) state.pos proper.1 (by omega)
      have isRound := lexRound_eq scanned
      rw [tokenizeFrom]
      rcases result with ⟨gap, _⟩ | ⟨opening, gap, leaves, last⟩
      · by_cases atEnd : (Utf8.encode text).length ≤ stop
        · have isEnd : stop = (Utf8.encode text).length := by omega
          rw [isRound, if_pos atEnd]
          refine Yields.ok ⟨_, rfl, ?_⟩
          rw [isEnd]
          exact Tiling.eof (isEnd ▸ gap)
        · rw [isRound, if_neg atEnd]
          rw [if_neg atEnd] at isRound
          have takes := tokenAt_spec apart state (Nat.lt_of_not_le atEnd)
          cases isToken : tokenAt (Utf8.encode text) state stop with
          | error fault => exact takes.of_eq_error isToken
          | ok token =>
              obtain ⟨starts, taken, notEnd⟩ := takes.of_eq_ok isToken
              rw [isToken] at isRound
              have round : Round (Utf8.encode text) state (takeToken state token) := ⟨stop, isRound⟩
              have moved : (takeToken state token).pos = token.span.stop := rfl
              have further := taken.1
              refine Yields.mono (tokenizeFrom_tiles ends fuel (takeToken state token)
                (reached.tail round) ⟨taken.2.1, taken.2.2⟩ (by omega)) fun tokens tiles => ?_
              obtain ⟨later, isTokens, tiling⟩ := tiles
              have clean := gap.clean apart proper.2
              rw [← starts] at gap clean inside taken
              refine ⟨token :: later, ?_, Tiling.token gap taken.1
                (Utf8.boundary_of_clean inside clean)
                (Utf8.boundary_of_clean taken.2.1 taken.2.2) notEnd tiling⟩
              rw [isTokens]
              show state.tokens ++ [token] ++ later = state.tokens ++ token :: later
              rw [List.append_assoc, List.singleton_append]
      · -- The byte left of an open comment makes no token.
        have isLast : stop = (Utf8.encode text).length - 1 := by omega
        have none := ends state reached opening gap leaves
        rw [isRound, if_neg (by omega), tokenAt_last last, isLast]
        have inside : (Utf8.encode text).length - 1 < (Utf8.encode text).length := by omega
        have takes := nextToken_spec apart inside
        cases isToken : nextToken (Utf8.encode text) ((Utf8.encode text).length - 1) with
        | error fault => exact takes.of_eq_error isToken
        | ok token => exact absurd isToken (none token)

theorem startState_pos : (startState text).pos = bomLength text := rfl

theorem startState_proper (text : List Char) : Proper (Utf8.encode text) (startState text) := by
  rw [Proper, startState_pos, bomLength]
  split_ifs with marked
  · obtain ⟨rest, rfl⟩ : ∃ rest, text = Char.ofNat 0xFEFF :: rest := by
      cases text with
      | nil => exact absurd marked (by simp)
      | cons c rest => exact ⟨rest, by rw [List.head?_cons, Option.some.injEq] at marked; rw [marked]⟩
    have three : (String.utf8EncodeChar (Char.ofNat 0xFEFF)).length = 3 := by decide
    rw [Utf8.encode_cons]
    constructor
    · rw [List.length_append, three]
      exact Nat.le_add_right _ _
    · intro b found
      rw [List.getElem?_append_right (by rw [three]), three] at found
      exact Utf8.lead_head found
  · exact ⟨Nat.zero_le _, fun b found => Utf8.lead_head found⟩

theorem Tiling.behind : ∀ {tokens later : List Token} {pos : Nat}, later ≠ [] →
    Tiling text pos (tokens ++ later) →
    Tiling text ((tokens.getLast?).elim pos fun token => token.span.stop) later
  | [], _, _, _, tiling => tiling
  | [_], later, pos, nonempty, tiling => by
      rw [List.singleton_append] at tiling
      cases tiling with
      | eof => exact absurd rfl nonempty
      | token _ _ _ _ _ rest => exact rest
  | _ :: next :: tokens, later, pos, nonempty, tiling => by
      rw [List.cons_append] at tiling
      cases tiling with
      | token _ _ _ _ _ rest =>
          have inner := @Tiling.behind (next :: tokens) later _ nonempty rest
          rw [List.getLast?_cons_cons]
          rw [List.getLast?_cons] at inner ⊢
          exact inner

theorem tokenize_passes {state : LexState}
    (reached : Relation.ReflTransGen (Round (Utf8.encode text)) (startState text) state) :
    Proper (Utf8.encode text) state ∧
      ((state.tokens.getLast?).elim (bomLength text) fun token => token.span.stop) = state.pos ∧
      ∃ fuel, (Utf8.encode text).length - state.pos < fuel ∧
        tokenize text = tokenizeFrom (Utf8.encode text) fuel state := by
  induction reached with
  | refl => exact ⟨startState_proper text, rfl, _, by omega, rfl⟩
  | @tail state next _ round earlier =>
      obtain ⟨proper, _, fuel, enough, same⟩ := earlier
      obtain ⟨properNext, further, token, isTokens, moved⟩ :=
        round_proper (asciiApart_encode text) proper round
      obtain ⟨fuel, rfl⟩ : ∃ smaller, fuel = smaller + 1 := ⟨fuel - 1, by omega⟩
      have inside := properNext.1
      refine ⟨properNext, ?_, fuel, by omega, ?_⟩
      · rw [isTokens, List.getLast?_concat]
        exact moved.symm
      · obtain ⟨pos, isRound⟩ := round
        rw [same, tokenizeFrom, isRound]
        rfl

theorem tokenize_of_leaves {state : LexState} {opening : Nat} {token : Token}
    (reached : Relation.ReflTransGen (Round (Utf8.encode text)) (startState text) state)
    (gap : Gap (Utf8.encode text) state.pos opening) (leaves : Leaves (Utf8.encode text) opening)
    (isToken : nextToken (Utf8.encode text) ((Utf8.encode text).length - 1) = .ok token) :
    token.span.start = (Utf8.encode text).length - 1 ∧
      ∃ last, tokenize text = .ok (state.tokens ++ [token, last]) := by
  have apart := asciiApart_encode text
  have inside := leaves.inside
  have isByte : (Utf8.encode text).length - 1 < (Utf8.encode text).length := by omega
  have spec := (nextToken_spec apart isByte).of_eq_ok isToken
  obtain ⟨starts, taken, _⟩ := spec
  refine ⟨starts, ?_⟩
  obtain ⟨proper, _, fuel, enough, same⟩ := tokenize_passes reached
  obtain ⟨stop, scanned, after, within, result⟩ := skipWhitespaceAndComments_spec
    (Utf8.encode text) ((Utf8.encode text).length + 1) state.pos proper.1 (by omega)
  have last : stop + 1 = (Utf8.encode text).length := by
    rcases result with ⟨_, nothing⟩ | ⟨_, _, _, last⟩
    · exact absurd leaves (nothing opening gap)
    · exact last
  have isLast : stop = (Utf8.encode text).length - 1 := by omega
  have isRound := lexRound_eq scanned
  rw [if_neg (by omega), tokenAt_last last, isLast, isToken] at isRound
  have further := gap.le
  have atEnd : (takeToken state token).pos = (Utf8.encode text).length := by
    have bounds := taken.1
    have bounded := taken.2.1
    show token.span.stop = _
    omega
  have finish : lexRound (Utf8.encode text) (takeToken state token) =
      .ok ((Utf8.encode text).length, none) := by
    have skipped : skipWhitespaceAndComments (Utf8.encode text) ((Utf8.encode text).length + 1)
        (takeToken state token).pos = .ok (Utf8.encode text).length := by
      rw [atEnd]
      exact skip_atEnd _
    rw [lexRound_eq skipped, if_pos (Nat.le_refl _)]
  obtain ⟨fuel, rfl⟩ : ∃ smaller, fuel = smaller + 2 := ⟨fuel - 2, by omega⟩
  refine ⟨Token.new .eof (Utf8.encode text).length (Utf8.encode text).length, ?_⟩
  rw [same, tokenizeFrom, isRound]
  show tokenizeFrom (Utf8.encode text) (fuel + 1) (takeToken state token) = _
  rw [tokenizeFrom, finish]
  show Except.ok (state.tokens ++ [token] ++ [_]) = _
  rw [List.append_assoc]
  rfl

/-- The tokens partition the text exactly when no block comment that never closes
leaves its last byte to a token. -/
theorem tokenize_partitions_iff (text : List Char) :
    Partitioned text (tokenize text) ↔ CommentsEnd text := by
  constructor
  · intro partitioned state reached opening gap leaves token isToken
    obtain ⟨starts, last, isTokens⟩ := tokenize_of_leaves reached gap leaves isToken
    have tiling := partitioned.tiles _ isTokens
    have rest := Tiling.behind (List.cons_ne_nil _ _) tiling
    rw [(tokenize_passes reached).2.1] at rest
    have inside := leaves.inside
    cases rest with
    | token into =>
        rw [starts] at into
        have onward := gap.continues into (by omega)
        have atEnd := onward.of_open leaves.isOpen (by omega)
        omega
  · intro ends
    have run := tokenizeFrom_tiles ends ((Utf8.encode text).length + 1) (startState text)
      Relation.ReflTransGen.refl (startState_proper text) (by omega)
    constructor
    · intro tokens isTokens
      obtain ⟨later, same, tiling⟩ := run.of_eq_ok isTokens
      rw [same]
      exact tiling
    · intro fault isFault
      exact run.of_eq_error isFault

/-- An open comment that ends in a character of two bytes. -/
def openComment : List Char := "/*é".toList

/-- Its second byte becomes a token, that starts inside a character. -/
theorem openComment_not_partitioned : ¬ Partitioned openComment (tokenize openComment) := by
  intro partitioned
  have isTokens : tokenize openComment =
      .ok [Token.new .ident 3 4, Token.new .eof 4 4] := by decide +kernel
  have tiling := partitioned.tiles _ isTokens
  cases tiling with
  | token _ _ starts =>
      have isByte : (Utf8.encode openComment)[3]? = some 0xA9 := by decide
      exact absurd (Utf8.clean_of_boundary starts isByte) (by decide)

end Rayzor.Parser
