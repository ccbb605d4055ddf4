import Rayzor.Json.Leniency
import Rayzor.Json.Numbers

/-!
Contract: the scanners on the numbers and strings of the grammar.

Owns: that a number and a string end where the grammar says, what the parser makes
of a number, and that a name does not depend on what follows it.
-/

namespace Rayzor.Json

open Library

/-- What follows is no digit. -/
def EndsDigits (rest : Bytes) : Prop := ∀ b, rest.head? = some b → isDigitByte b = false

theorem all_digits {digits : List Nat} (small : ∀ digit ∈ digits, digit < 10) :
    ∀ b ∈ digits.map digitByte, isDigitByte b = true := by
  intro b isIn
  obtain ⟨digit, isDigit, rfl⟩ := List.mem_map.mp isIn
  exact isDigitByte_digitByte (small digit isDigit)

theorem dropWhile_run {digits : List Nat} {rest : Bytes} (small : ∀ digit ∈ digits, digit < 10)
    (ends : EndsDigits rest) :
    (digits.map digitByte ++ rest).dropWhile isDigitByte = rest ∧
      (digits.map digitByte ++ rest).takeWhile isDigitByte = digits.map digitByte := by
  have all := all_digits small
  rw [List.takeWhile_append_of_pos all, List.dropWhile_append_of_pos all]
  cases rest with
  | nil => exact ⟨rfl, List.append_nil _⟩
  | cons b rest =>
      have stops : ¬ isDigitByte b = true := by
        rw [ends b rfl]
        exact Bool.false_ne_true
      rw [List.takeWhile_cons_of_neg stops, List.dropWhile_cons_of_neg stops]
      exact ⟨rfl, List.append_nil _⟩

theorem EndsNumber.digits {rest : Bytes} (ends : EndsNumber rest) : EndsDigits rest :=
  fun b isHead => (ends b isHead).1

theorem IsExponent.skipped {exponent rest : Bytes} (isExponent : IsExponent exponent)
    (ends : EndsNumber rest) :
    skipExponent (exponent ++ rest) = rest ∧ EndsDigits (exponent ++ rest) ∧
      (exponent ++ rest).head? ≠ some (byte '.') ∧
      (startsExponent (exponent ++ rest) = false ↔ exponent = []) := by
  cases isExponent with
  | none =>
      obtain ⟨_, noExponent, _, skipped⟩ := startsFraction_of_ends ends
      exact ⟨skipped, ends.digits, fun isPoint => (ends _ isPoint).2.1 rfl,
        iff_of_true noExponent rfl⟩
  | @digits mark sign digits isMark isSign run =>
      have noSign : ∀ b, (digits.map digitByte ++ rest).head? = some b →
          b ≠ byte '+' ∧ b ≠ byte '-' := by
        obtain ⟨digit, more, rfl⟩ := List.exists_cons_of_ne_nil run.nonempty
        intro b isHead
        rw [List.map_cons, List.cons_append, List.head?_cons, Option.some.injEq] at isHead
        have table : ∀ digit < 10, digitByte digit ≠ byte '+' ∧ digitByte digit ≠ byte '-' := by
          decide
        exact isHead ▸ table digit (run.small digit List.mem_cons_self)
      have starts : (mark :: (sign ++ digits.map digitByte) ++ rest).head? = some (byte 'e') ∨
          (mark :: (sign ++ digits.map digitByte) ++ rest).head? = some (byte 'E') :=
        isMark.imp (congrArg some) (congrArg some)
      have behind := (dropWhile_run run.small ends.digits).1
      refine ⟨?_, ?_, ?_, iff_of_false ?_ (List.cons_ne_nil _ _)⟩
      · rw [skipExponent, if_pos starts]
        cases isSign with
        | none =>
            have unsigned : ¬ ((digits.map digitByte ++ rest).head? = some (byte '+') ∨
                (digits.map digitByte ++ rest).head? = some (byte '-')) :=
              not_or.mpr ⟨fun plus => (noSign _ plus).1 rfl, fun minus => (noSign _ minus).2 rfl⟩
            exact (congrArg _ (if_neg unsigned)).trans behind
        | plus => exact behind
        | minus => exact behind
      · intro b isHead
        rw [List.cons_append, List.head?_cons, Option.some.injEq] at isHead
        rcases isMark with rfl | rfl <;> rw [← isHead] <;> decide
      · rw [List.cons_append, List.head?_cons, ne_eq, Option.some.injEq]
        rcases isMark with rfl | rfl <;> decide
      · rw [startsExponent, Bool.or_eq_false_iff, decide_eq_false_iff_not, decide_eq_false_iff_not]
        exact fun neither => starts.elim neither.1 neither.2

theorem IsFraction.skipped {fraction rest : Bytes} (isFraction : IsFraction fraction)
    (ends : EndsDigits rest) (noPoint : rest.head? ≠ some (byte '.')) :
    skipFraction (fraction ++ rest) = rest ∧ EndsDigits (fraction ++ rest) ∧
      (startsFraction (fraction ++ rest) = false ↔ fraction = []) := by
  cases isFraction with
  | none => exact ⟨if_neg noPoint, ends, iff_of_true (decide_eq_false noPoint) rfl⟩
  | @digits digits run =>
      refine ⟨?_, ?_, iff_of_false ?_ (List.cons_ne_nil _ _)⟩
      · rw [skipFraction]
        exact (if_pos rfl).trans (dropWhile_run run.small ends).1
      · intro b isHead
        rw [List.cons_append, List.head?_cons, Option.some.injEq] at isHead
        rw [← isHead]
        decide
      · rw [startsFraction]
        exact fun other => Bool.false_ne_true (other.symm.trans (decide_eq_true rfl))

theorem unsigned_minus (negative : Bool) {digits : List Nat} (isDigits : IsDigits digits)
    (rest : Bytes) :
    unsigned (minus negative ++ (digits.map digitByte ++ rest)) = digits.map digitByte ++ rest ∧
      ((minus negative ++ (digits.map digitByte ++ rest)).head? = some (byte '-') ↔
        negative = true) := by
  cases negative with
  | true => exact ⟨rfl, iff_of_true rfl rfl⟩
  | false =>
      have noMinus : (digits.map digitByte ++ rest).head? ≠ some (byte '-') := by
        obtain ⟨digit, more, rfl⟩ := List.exists_cons_of_ne_nil isDigits.nonempty
        rw [List.map_cons, List.cons_append, List.head?_cons, ne_eq, Option.some.injEq]
        have table : ∀ digit < 10, digitByte digit ≠ byte '-' := by decide
        exact table digit (isDigits.small digit List.mem_cons_self)
      exact ⟨if_neg noMinus, iff_of_false noMinus Bool.false_ne_true⟩

theorem overflows_iff {digits : List Nat} (small : ∀ digit ∈ digits, digit < 10) :
    ((digits.map digitByte).foldl accumulate (0, false)).2 = true ↔ 2 ^ 64 ≤ number digits := by
  induction digits using List.reverseRecOn with
  | nil => exact iff_of_false Bool.false_ne_true (by decide)
  | append_singleton digits digit ih =>
      have earlier := ih fun digit isIn => small digit (List.mem_append_left _ isIn)
      have isSmall := small digit (List.mem_append_right _ List.mem_cons_self)
      have isDigit : (digitByte digit).toNat - (byte '0').toNat = digit := by
        rw [digitByte_toNat isSmall]
        exact Nat.add_sub_cancel_left 48 digit
      rw [List.map_append, List.foldl_append, number_append]
      show (accumulate _ (digitByte digit)).2 = true ↔ _
      rw [accumulate]
      dsimp only
      rw [isDigit, Bool.or_eq_true, Bool.or_eq_true, decide_eq_true_eq, decide_eq_true_eq, earlier]
      by_cases fits : number digits < 2 ^ 64
      · rw [accumulate_digits digits 0 (fun digit isIn => small digit (List.mem_append_left _ isIn))
          fits]
        show (2 ^ 64 ≤ number digits ∨ 2 ^ 64 ≤ number digits * 10) ∨
          2 ^ 64 ≤ number digits * 10 % 2 ^ 64 + digit ↔ _
        omega
      · omega

/-- A number of the grammar as the scanner sees it: it ends where the grammar says, and is
a float for its fraction, its exponent, or digits that overflow. -/
theorem scanned_number (negative : Bool) {digits : List Nat} {fraction exponent rest : Bytes}
    (isDigits : IsDigits digits) (isFraction : IsFraction fraction)
    (isExponent : IsExponent exponent) (ends : EndsNumber rest) :
    let text := minus negative ++ (digits.map digitByte ++ (fraction ++ exponent))
    behindNumber (text ++ rest) = rest ∧ literalOf (text ++ rest) = text ∧
      magnitude (text ++ rest) = (digits.map digitByte).foldl accumulate (0, false) ∧
      ((text ++ rest).head? = some (byte '-') ↔ negative = true) ∧
      (isFloat (text ++ rest) = false ↔
        fraction = [] ∧ exponent = [] ∧ number digits < 2 ^ 64) := by
  intro text
  obtain ⟨exponentEnd, endsDigits, noPoint, exponentStarts⟩ := isExponent.skipped ends
  obtain ⟨fractionEnd, endsRun, fractionStarts⟩ := isFraction.skipped endsDigits noPoint
  have shape : text ++ rest =
      minus negative ++ (digits.map digitByte ++ (fraction ++ (exponent ++ rest))) := by
    simp only [text, List.append_assoc]
  obtain ⟨isUnsigned, isNegative⟩ :=
    unsigned_minus negative isDigits (fraction ++ (exponent ++ rest))
  obtain ⟨dropped, taken⟩ := dropWhile_run isDigits.small endsRun
  have isFractionOf : fractionOf (text ++ rest) = fraction ++ (exponent ++ rest) := by
    rw [fractionOf, shape, isUnsigned, dropped]
  have isMagnitude : magnitude (text ++ rest) =
      (digits.map digitByte).foldl accumulate (0, false) := by
    rw [magnitude, shape, isUnsigned, taken]
  have isBehind : behindNumber (text ++ rest) = rest := by
    rw [behindNumber, isFractionOf, fractionEnd, exponentEnd]
  refine ⟨isBehind, ?_, isMagnitude, by rw [shape]; exact isNegative, ?_⟩
  · rw [literalOf, isBehind, List.length_append, Nat.add_sub_cancel, List.take_left]
  · rw [isFloat, isFractionOf, fractionEnd, isMagnitude, Bool.or_eq_false_iff,
      Bool.or_eq_false_iff, fractionStarts, exponentStarts, ← Bool.not_eq_true,
      overflows_iff isDigits.small, Nat.not_le, and_assoc]

theorem scanned_integer (negative : Bool) {digits : List Nat} {rest : Bytes}
    (isDigits : IsDigits digits) (ends : EndsNumber rest) :
    let text := minus negative ++ digits.map digitByte
    behindNumber (text ++ rest) = rest ∧ literalOf (text ++ rest) = text ∧
      magnitude (text ++ rest) = (digits.map digitByte).foldl accumulate (0, false) ∧
      ((text ++ rest).head? = some (byte '-') ↔ negative = true) ∧
      (isFloat (text ++ rest) = false ↔ number digits < 2 ^ 64) := by
  have scanned := scanned_number negative isDigits IsFraction.none IsExponent.none ends
  simp only [List.append_nil, true_and] at scanned
  exact scanned

theorem IsNumber.ends {text rest : Bytes} {tree : Tree} (isNumber : IsNumber text tree)
    (ends : EndsNumber rest) :
    behindNumber (text ++ rest) = rest ∧ literalOf (text ++ rest) = text := by
  cases isNumber with
  | @int negative digits isDigits _ =>
      have scanned := scanned_integer negative isDigits ends
      exact ⟨scanned.1, scanned.2.1⟩
  | @float negative digits fraction exponent isDigits isFraction isExponent _ =>
      have scanned := scanned_number negative isDigits isFraction isExponent ends
      exact ⟨scanned.1, scanned.2.1⟩

theorem ofNat_eq_intMin {value : Nat} (fits : value < 2 ^ 64) :
    BitVec.ofNat 64 value = BitVec.intMin 64 ↔ value = 2 ^ 63 := by
  rw [← BitVec.toNat_inj, BitVec.toNat_ofNat, Nat.mod_eq_of_lt fits]
  rfl

theorem toInt_positive {value : Nat} (fits : value < 2 ^ 63) :
    (BitVec.ofNat 64 value).toInt = value := by
  rw [BitVec.toInt_eq_toNat_cond, BitVec.toNat_ofNat, Nat.mod_eq_of_lt (by omega)]
  split_ifs <;> omega

theorem toInt_negative {value : Nat} (fits : value ≤ 2 ^ 63) :
    (-BitVec.ofNat 64 value).toInt = -(value : Int) := by
  rw [BitVec.toInt_eq_toNat_cond, BitVec.toNat_neg, BitVec.toNat_ofNat]
  split_ifs <;> omega

theorem IsInt64.magnitude {negative : Bool} {digits : List Nat}
    (isInt64 : IsInt64 (signed negative digits)) :
    number digits < 2 ^ 63 ∨ negative = true ∧ number digits = 2 ^ 63 := by
  obtain ⟨above, below⟩ := isInt64
  cases negative with
  | true =>
      rw [signed, if_pos rfl] at above
      have bound : number digits < 2 ^ 63 ∨ number digits = 2 ^ 63 := by omega
      exact bound.imp_right fun same => ⟨rfl, same⟩
  | false =>
      rw [signed, if_neg Bool.false_ne_true] at below
      exact Or.inl (by omega)

theorem IsNumber.least {text rest : Bytes} {tree : Tree} (isNumber : IsNumber text tree)
    (ends : EndsNumber rest) (least : IsLeast (text ++ rest)) : tree = .int (-2 ^ 63) := by
  obtain ⟨noFloat, isNegative, isLeast⟩ := least
  cases isNumber with
  | @int negative digits isDigits _ =>
      obtain ⟨_, _, isMagnitude, sign, float⟩ := scanned_integer negative isDigits ends
      have fits := float.mp noFloat
      rw [isMagnitude, accumulate_digits digits 0 isDigits.small fits] at isLeast
      have value := (ofNat_eq_intMin fits).mp isLeast
      rw [signed, if_pos (sign.mp isNegative)]
      show Tree.int (-(number digits : Int)) = _
      rw [show number digits = 2 ^ 63 from value]
      rfl
  | @float negative digits fraction exponent isDigits isFraction isExponent outside =>
      obtain ⟨_, _, isMagnitude, sign, float⟩ :=
        scanned_number negative isDigits isFraction isExponent ends
      obtain ⟨noFraction, noExponent, fits⟩ := float.mp noFloat
      rw [isMagnitude, accumulate_digits digits 0 isDigits.small fits] at isLeast
      have value : number digits = 2 ^ 63 := (ofNat_eq_intMin fits).mp isLeast
      refine absurd ?_ (outside noFraction noExponent)
      rw [IsInt64, signed, if_pos (sign.mp isNegative), value]
      omega

theorem IsNumber.parsed (platform : Platform) {text rest : Bytes} {tree : Tree}
    (isNumber : IsNumber text tree) (ends : EndsNumber rest) :
    parseNumber platform (text ++ rest) = .error .overflow ∨
      ∃ value, parseNumber platform (text ++ rest) = .ok (value, rest) ∧
        Survives platform.overflowChecks tree ∧ (Delivers platform value tree ↔ Whole tree) := by
  rw [parseNumber_eq_ite]
  cases isNumber with
  | @int negative digits isDigits isInt64 =>
      obtain ⟨isBehind, _, isMagnitude, sign, float⟩ := scanned_integer negative isDigits ends
      have bound := isInt64.magnitude
      have fits : number digits < 2 ^ 64 := by omega
      have isValue := accumulate_digits digits 0 isDigits.small fits
      rw [← isMagnitude] at isValue
      have isNumber : (magnitude (minus negative ++ digits.map digitByte ++ rest)).1 =
          number digits := congrArg Prod.fst isValue
      rw [float.mpr fits, if_neg Bool.false_ne_true, isNumber, isBehind]
      split_ifs with isMinus overflows
      · exact Or.inl rfl
      · have isNegative := sign.mp isMinus
        refine Or.inr ⟨_, rfl, Survives.int ?_, iff_of_true (Delivers.int ?_) (Whole.int _)⟩
        · intro checks least
          rw [signed, if_pos isNegative] at least
          exact overflows ⟨checks, (ofNat_eq_intMin fits).mpr (by omega)⟩
        · rw [toInt_negative (by omega), signed, if_pos isNegative]
      · have notNegative : ¬ negative = true := fun isNegative => isMinus (sign.mpr isNegative)
        have small : number digits < 2 ^ 63 := bound.resolve_right fun both => notNegative both.1
        refine Or.inr ⟨_, rfl, Survives.int ?_, iff_of_true (Delivers.int ?_) (Whole.int _)⟩
        · intro _ least
          rw [signed, if_neg notNegative] at least
          omega
        · rw [toInt_positive small, signed, if_neg notNegative]
  | @float negative digits fraction exponent isDigits isFraction isExponent outside =>
      obtain ⟨isBehind, isLiteral, _, _, float⟩ :=
        scanned_number negative isDigits isFraction isExponent ends
      rw [isBehind, isLiteral]
      by_cases isFloating : isFloat (minus negative ++ (digits.map digitByte ++
          (fraction ++ exponent)) ++ rest) = true
      · have whole : ¬ FitsWord (minus negative ++ (digits.map digitByte ++
            (fraction ++ exponent))) := by
          rintro ⟨negative', digits', isDigits', same, fits⟩
          have noFloat := (scanned_integer negative' isDigits' ends).2.2.2.2.mpr fits
          rw [← same] at noFloat
          exact Bool.false_ne_true (noFloat.symm.trans isFloating)
        rw [if_pos isFloating]
        exact Or.inr ⟨_, rfl, Survives.float _, iff_of_true (Delivers.float _) (Whole.float whole)⟩
      · have noFloat := (Bool.not_eq_true _).mp isFloating
        obtain ⟨rfl, rfl, fits⟩ := float.mp noFloat
        have cut : ∀ bits, (Delivers platform (.int bits) (.float (minus negative ++
            (digits.map digitByte ++ ([] ++ []))))) ↔
            Whole (.float (minus negative ++ (digits.map digitByte ++ ([] ++ [])))) := by
          refine fun bits => iff_of_false (fun delivers => nomatch delivers) fun whole => ?_
          cases whole with
          | float apart =>
              exact apart ⟨negative, digits, isDigits, by rw [List.append_nil, List.append_nil],
                fits⟩
        rw [if_neg isFloating]
        split_ifs
        · exact Or.inl rfl
        · exact Or.inr ⟨_, rfl, Survives.float _, cut _⟩
        · exact Or.inr ⟨_, rfl, Survives.float _, cut _⟩

theorem encodeChar_plain {c : Char} (notQuote : c ≠ Char.ofNat 0x22)
    (notSlash : c ≠ Char.ofNat 0x5C) : ∀ b ∈ String.utf8EncodeChar c, isPlain b = true := by
  intro b isIn
  rcases encodeChar_cases c with ⟨ascii, isByte⟩ | ⟨_, above⟩
  · rw [isByte, List.mem_singleton] at isIn
    rw [isIn, isPlain, Bool.and_eq_true, bne_iff_ne, bne_iff_ne]
    exact ⟨ofNat_ne_byte ascii (by decide) notQuote, ofNat_ne_byte ascii (by decide) notSlash⟩
  · exact isPlain_above (above b isIn)

theorem drop_hex {hex : Bytes} {cp : Nat} (isHex : IsHex hex cp) (rest : Bytes) :
    (hex ++ rest).drop 4 = rest := (isHex.read rest).2.1

theorem IsChars.ends {raw : Bytes} (isChars : IsChars raw) (rest : Bytes) :
    behindString (raw ++ quoteByte :: rest) = rest := by
  induction isChars with
  | nil => rw [List.nil_append, behindString_cons, if_pos rfl]
  | plain _ notQuote notSlash _ ih =>
      rw [List.append_assoc, behindString_plain _ (encodeChar_plain notQuote notSlash), ih]
  | @escape letter c more isIn _ ih =>
      rw [List.cons_append, List.cons_append, behindString_cons, if_neg (by decide), if_pos rfl]
      exact (if_neg (escaped_eq isIn).2.1).trans ih
  | @unicode hex more cp isHex _ ih =>
      rw [List.cons_append, List.cons_append, behindString_cons, if_neg (by decide), if_pos rfl]
      refine (if_pos rfl).trans ?_
      rw [List.append_assoc, drop_hex isHex, ih]

theorem IsChars.closed {raw : Bytes} (isChars : IsChars raw) (rest : Bytes) :
    IsClosedString (raw ++ quoteByte :: rest) :=
  ⟨raw, isChars, by rw [isChars.ends]⟩

theorem IsChars.encoded {raw : Bytes} (isChars : IsChars raw) : Encoded raw := by
  have slash : backslashByte.toNat < 128 := by decide
  have u : (byte 'u').toNat < 128 := by decide
  induction isChars with
  | nil => exact encoded_nil
  | @plain c _ _ _ _ _ ih => exact Encoded.append ⟨[c], (List.append_nil _).symm⟩ ih
  | escape isIn _ ih => exact (ih.cons (escaped_eq isIn).2.2).cons slash
  | unicode isHex _ ih => exact (((isHex.read []).2.2.2.append ih).cons u).cons slash

theorem IsChars.escape_read {raw : Bytes} (isChars : IsChars raw) :
    ∀ {hex : Bytes} {cp : Nat}, IsHex hex cp →
      ∃ value tail, IsChars tail ∧ tail.length ≤ raw.length ∧
        ∀ rest, parseUnicodeEscape (hex ++ (raw ++ quoteByte :: rest)) =
          (value, tail ++ quoteByte :: rest) := by
  have alone : ∀ {raw hex : Bytes} {cp : Nat}, IsChars raw → IsHex hex cp →
      isHighSurrogate cp = true →
      (∀ rest more, raw ++ quoteByte :: rest ≠ backslashByte :: byte 'u' :: more) →
      ∃ value tail, IsChars tail ∧ tail.length ≤ raw.length ∧
        ∀ rest, parseUnicodeEscape (hex ++ (raw ++ quoteByte :: rest)) =
          (value, tail ++ quoteByte :: rest) := by
    intro raw hex cp isChars isHex high noEscape
    refine ⟨0xFFFD, raw, isChars, le_rfl, fun rest => ?_⟩
    obtain ⟨isNumber, isLeft, _⟩ := isHex.read (raw ++ quoteByte :: rest)
    rw [parseUnicodeEscape]
    dsimp only
    rw [isNumber, high, if_pos rfl]
    split
    · rename_i slash u more isAfter
      rw [isLeft] at isAfter
      rw [if_neg fun both => noEscape rest more (by rw [isAfter, both.1, both.2]), ← isAfter]
    · rw [isLeft]
  have single : ∀ {raw hex : Bytes} {cp : Nat}, IsChars raw → IsHex hex cp →
      isHighSurrogate cp = false →
      ∃ value tail, IsChars tail ∧ tail.length ≤ raw.length ∧
        ∀ rest, parseUnicodeEscape (hex ++ (raw ++ quoteByte :: rest)) =
          (value, tail ++ quoteByte :: rest) :=
    fun isChars isHex notHigh => ⟨_, _, isChars, le_rfl, fun rest =>
      parseUnicodeEscape_single isHex notHigh _⟩
  induction isChars with
  | nil =>
      intro hex cp isHex
      cases high : isHighSurrogate cp with
      | false => exact single IsChars.nil isHex high
      | true =>
          refine alone IsChars.nil isHex high fun rest more same => ?_
          exact absurd (List.cons.inj same).1 (by decide)
  | @plain c more visible notQuote notSlash isMore _ =>
      intro hex cp isHex
      have isChars := IsChars.plain visible notQuote notSlash isMore
      cases high : isHighSurrogate cp with
      | false => exact single isChars isHex high
      | true =>
          refine alone isChars isHex high fun rest tail same => ?_
          obtain ⟨lead, others, isBytes⟩ :=
            List.exists_cons_of_ne_nil (@String.utf8EncodeChar_ne_nil c)
          have plain := encodeChar_plain notQuote notSlash lead
            (by rw [isBytes]; exact List.mem_cons_self)
          rw [isBytes, List.cons_append, List.cons_append] at same
          rw [(List.cons.inj same).1] at plain
          exact absurd plain (by decide)
  | @escape letter c more isIn isMore _ =>
      intro hex cp isHex
      have isChars := IsChars.escape isIn isMore
      cases high : isHighSurrogate cp with
      | false => exact single isChars isHex high
      | true =>
          refine alone isChars isHex high fun rest tail same => ?_
          exact (escaped_eq isIn).2.1 (List.cons.inj (List.cons.inj same).2).1
  | @unicode low more second isLow isMore ih =>
      intro hex cp isHex
      have isChars := IsChars.unicode isLow isMore
      cases high : isHighSurrogate cp with
      | false => exact single isChars isHex high
      | true =>
          obtain ⟨value, tail, isTail, shorter, reads⟩ := ih isLow
          have step : ∀ rest, parseUnicodeEscape (hex ++
              (backslashByte :: byte 'u' :: (low ++ more) ++ quoteByte :: rest)) =
              if isLowSurrogate value then
                ((cp - 0xD800) * 2 ^ 10 + (value - 0xDC00) + 0x10000, tail ++ quoteByte :: rest)
              else (0xFFFD,
                backslashByte :: byte 'u' :: (low ++ more) ++ quoteByte :: rest) := by
            intro rest
            obtain ⟨isNumber, isLeft, _⟩ := isHex.read
              (backslashByte :: byte 'u' :: (low ++ more) ++ quoteByte :: rest)
            have later := reads rest
            rw [parseUnicodeEscape]
            dsimp only
            rw [isNumber, high, if_pos rfl]
            split
            · rename_i slash u after isAfter
              rw [isLeft, List.cons_append, List.cons_append] at isAfter
              cases isAfter
              rw [if_pos ⟨rfl, rfl⟩, List.append_assoc, later, List.cons_append,
                List.cons_append, List.append_assoc]
            · rename_i other
              exact absurd isLeft (other _ _ _)
          cases isPair : isLowSurrogate value with
          | true =>
              refine ⟨_, tail, isTail, ?_, fun rest => (step rest).trans (if_pos isPair)⟩
              simp only [List.length_cons, List.length_append]
              omega
          | false =>
              exact ⟨0xFFFD, _, isChars, le_rfl, fun rest =>
                (step rest).trans (if_neg (by rw [isPair]; exact Bool.false_ne_true))⟩

/-- What the slow path reads does not depend on the text behind the string. -/
theorem parseStringLoop_name {raw rest rest' : Bytes} (isChars : IsChars raw)
    (valid : Utf8.isValid rest = true) (valid' : Utf8.isValid rest' = true) (result : Bytes) :
    (parseStringLoop result (raw ++ quoteByte :: rest)).1 =
      (parseStringLoop result (raw ++ quoteByte :: rest')).1 := by
  have closes : Encoded [quoteByte] := encoded_ascii (by decide)
  have validBehind : ∀ {more rest : Bytes}, Encoded more → Utf8.isValid rest = true →
      Utf8.isValid (more ++ quoteByte :: rest) = true := by
    intro more rest encoded valid
    rw [encoded.isValid_append, ← List.singleton_append, closes.isValid_append, valid]
  cases isChars with
  | nil =>
      rw [List.nil_append, List.nil_append, parseStringLoop_cons, if_pos rfl,
        parseStringLoop_cons, if_pos rfl]
  | @plain c more visible notQuote notSlash isMore =>
      have positive : 0 < (String.utf8EncodeChar c).length :=
        List.length_pos_of_ne_nil String.utf8EncodeChar_ne_nil
      rw [List.append_assoc, List.append_assoc,
        parseStringLoop_plain result _ notQuote notSlash (validBehind isMore.encoded valid),
        parseStringLoop_plain result _ notQuote notSlash (validBehind isMore.encoded valid')]
      exact parseStringLoop_name isMore valid valid' _
  | @escape letter c more isIn isMore =>
      have notUnicode := (escaped_eq isIn).2.1
      rw [List.cons_append, List.cons_append, List.cons_append, List.cons_append,
        parseStringLoop_letter _ _ notUnicode, parseStringLoop_letter _ _ notUnicode]
      exact parseStringLoop_name isMore valid valid' _
  | @unicode hex more cp isHex isMore =>
      obtain ⟨value, tail, isTail, shorter, reads⟩ := isMore.escape_read isHex
      rw [List.cons_append, List.cons_append, List.cons_append, List.cons_append,
        parseStringLoop_unicode, parseStringLoop_unicode, List.append_assoc, List.append_assoc,
        reads, reads]
      exact parseStringLoop_name isTail valid valid' _
  termination_by raw.length
  decreasing_by all_goals simp only [List.length_append, List.length_cons]; omega

theorem IsChars.split {raw : Bytes} (isChars : IsChars raw) :
    ∃ front more, raw = front ++ more ∧ (∀ b ∈ front, isPlain b = true) ∧ Encoded front ∧
      IsChars more ∧ (more = [] ∨ more.head? = some backslashByte) := by
  induction isChars with
  | nil => exact ⟨[], [], rfl, fun b isIn => absurd isIn List.not_mem_nil, encoded_nil,
      IsChars.nil, Or.inl rfl⟩
  | @plain c rest _ notQuote notSlash _ ih =>
      obtain ⟨front, more, rfl, allPlain, encoded, isMore, isHead⟩ := ih
      refine ⟨String.utf8EncodeChar c ++ front, more, (List.append_assoc _ _ _).symm, ?_,
        Encoded.append ⟨[c], (List.append_nil _).symm⟩ encoded, isMore, isHead⟩
      intro b isIn
      exact (List.mem_append.mp isIn).elim (encodeChar_plain notQuote notSlash b) (allPlain b)
  | escape isIn isMore _ =>
      exact ⟨[], _, rfl, fun b isIn => absurd isIn List.not_mem_nil, encoded_nil,
        IsChars.escape isIn isMore, Or.inr rfl⟩
  | unicode isHex isMore _ =>
      exact ⟨[], _, rfl, fun b isIn => absurd isIn List.not_mem_nil, encoded_nil,
        IsChars.unicode isHex isMore, Or.inr rfl⟩

theorem parseString_name {raw rest : Bytes} (isChars : IsChars raw)
    (valid : Utf8.isValid rest = true) :
    (parseString (raw ++ quoteByte :: rest)).1 = (parseString (raw ++ [quoteByte])).1 := by
  obtain ⟨front, more, rfl, allPlain, encoded, isMore, isHead⟩ := isChars.split
  have stops : ∀ b behind, isPlain b = false →
      (front ++ b :: behind).takeWhile isPlain = front ∧
        (front ++ b :: behind).dropWhile isPlain = b :: behind := by
    intro b behind notPlain
    have ends : ¬ isPlain b = true := by rw [notPlain]; exact Bool.false_ne_true
    rw [List.takeWhile_append_of_pos allPlain, List.dropWhile_append_of_pos allPlain,
      List.takeWhile_cons_of_neg ends, List.dropWhile_cons_of_neg ends, List.append_nil]
    exact ⟨rfl, rfl⟩
  have read : ∀ behind, Utf8.isValid behind = true →
      (parseString (front ++ more ++ quoteByte :: behind)).1 =
        if more = [] then front
        else (parseStringLoop (if Utf8.isValid front then front else [])
          (more ++ quoteByte :: behind)).1 := by
    intro behind _
    rw [List.append_assoc, parseString]
    rcases isHead with rfl | startsEscape
    · obtain ⟨taken, left⟩ := stops quoteByte behind (by decide)
      rw [List.nil_append, left, taken, if_pos rfl]
      rfl
    · cases more with
      | nil => exact absurd startsEscape (by simp)
      | cons b tail =>
          rw [List.head?_cons, Option.some.injEq] at startsEscape
          obtain ⟨taken, left⟩ := stops b (tail ++ quoteByte :: behind)
            (by rw [startsEscape]; decide)
          rw [List.cons_append, left, taken, if_neg (List.cons_ne_nil b tail)]
          exact congrArg Prod.fst (if_neg (by rw [startsEscape]; decide))
  have empty : Utf8.isValid ([] : Bytes) = true := by rw [Utf8.isValid]
  rw [read rest valid, show [quoteByte] = quoteByte :: [] from rfl, read [] empty]
  split_ifs
  · rfl
  · exact parseStringLoop_name isMore valid empty _
  · exact parseStringLoop_name isMore valid empty _

end Rayzor.Json
