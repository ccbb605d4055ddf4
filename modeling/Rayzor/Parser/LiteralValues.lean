import Rayzor.Parser.IntLiterals

/-!
Contract: integer literals mean what they say.

Owns: the values of runs of digits as the parsers compute them, and that a literal
means its number exactly where its digits are neither cut nor read in another
radix.
-/

namespace Rayzor.Parser

open Library (Datum)

/-! ### Runs of digits -/

theorem foldl_digits (radix : Nat) (values : List Nat) (start : Nat) :
    values.foldl (fun value digit => value * radix + digit) start =
      start * radix ^ values.length + Nat.ofDigits radix values.reverse := by
  induction values generalizing start with
  | nil => simp
  | cons head rest ih =>
      rw [List.foldl_cons, ih, List.reverse_cons, Nat.ofDigits_append,
        Nat.ofDigits_singleton, List.length_reverse, List.length_cons, pow_succ]
      ring

theorem digitOf_eq (c : Char) : digitOf c =
    if 48 ≤ c.toNat ∧ c.toNat ≤ 57 then c.toNat - 48
    else if 97 ≤ c.toNat ∧ c.toNat ≤ 122 then c.toNat - 87
    else if 65 ≤ c.toNat ∧ c.toNat ≤ 90 then c.toNat - 55
    else 36 := by
  simp only [digitOf, Char.le_def, UInt32.le_iff_toNat_le]
  rfl

theorem isDigit_iff {c : Char} : c.isDigit = true ↔ 48 ≤ c.toNat ∧ c.toNat ≤ 57 := by
  simp only [Char.isDigit, Bool.and_eq_true, decide_eq_true_eq, ge_iff_le,
    UInt32.le_iff_toNat_le]
  rfl

theorem digitOf_lt_ten {c : Char} : digitOf c < 10 ↔ c.isDigit = true := by
  rw [isDigit_iff, digitOf_eq]
  split_ifs <;> omega

theorem digitOf_of_isDigit {c : Char} (isDigit : c.isDigit = true) :
    digitOf c = c.toNat - 48 := by
  rw [digitOf_eq, if_pos (isDigit_iff.mp isDigit)]

theorem mapM_toDigit {radix : Nat} {digits : Text} (valid : ∀ c ∈ digits, digitOf c < radix) :
    digits.mapM (toDigit radix) = some (digits.map digitOf) := by
  have each : ∀ c ∈ digits, toDigit radix c = some (digitOf c) := fun c member =>
    if_pos (valid c member)
  induction digits with
  | nil => rfl
  | cons c rest ih =>
      rw [List.mapM_cons, each c List.mem_cons_self, ih
        (fun other member => valid other (List.mem_cons_of_mem _ member))
        (fun other member => each other (List.mem_cons_of_mem _ member))]
      rfl

theorem mapM_toDigit_none {radix : Nat} {digits : Text} {c : Char} (member : c ∈ digits)
    (invalid : radix ≤ digitOf c) : digits.mapM (toDigit radix) = none := by
  induction digits with
  | nil => cases member
  | cons head rest ih =>
      rw [List.mapM_cons]
      rcases List.mem_cons.mp member with same | later
      · have none : toDigit radix head = none := if_neg (by rw [← same]; omega)
        rw [none]
        rfl
      · rw [ih later]
        cases toDigit radix head <;> rfl

theorem fromStrRadix_digits {radix : Nat} {digits : Text} (some : digits ≠ [])
    (noSign : digits.head? ≠ Option.some '+') (valid : ∀ c ∈ digits, digitOf c < radix) :
    fromStrRadix digits radix =
      if IntLiteral.valueIn radix digits < 2 ^ 64 then
        Option.some (IntLiteral.valueIn radix digits)
      else none := by
  unfold fromStrRadix IntLiteral.valueIn
  rw [if_neg noSign, if_neg some, mapM_toDigit valid]
  simp only [Option.bind_eq_bind, Option.bind_some, foldl_digits, Nat.zero_mul, Nat.zero_add]

theorem fromStrRadix_invalid {radix : Nat} {digits : Text} {c : Char}
    (noSign : digits.head? ≠ Option.some '+') (member : c ∈ digits)
    (invalid : radix ≤ digitOf c) : fromStrRadix digits radix = none := by
  unfold fromStrRadix
  rw [if_neg noSign, if_neg (List.ne_nil_of_mem member), mapM_toDigit_none member invalid]
  rfl

theorem digitsValue_eq {digits : Text} (valid : ∀ c ∈ digits, digitOf c < 10) :
    digitsValue digits = IntLiteral.valueIn 10 digits := by
  have same : digits.map (fun c => c.toNat - 48) = digits.map digitOf :=
    List.map_congr_left fun c member => (digitOf_of_isDigit (digitOf_lt_ten.mp (valid c member))).symm
  have folded := foldl_digits 10 (digits.map digitOf) 0
  rw [← same, List.foldl_map, Nat.zero_mul, Nat.zero_add, same] at folded
  exact folded

theorem nearestDouble_zero (value : Nat) : nearestDouble false value 0 = asDouble value := by
  unfold nearestDouble asDouble Library.Binary.ofInt Library.Binary.roundInt
  rw [if_pos (le_refl 0), Int.toNat_zero, pow_zero, Nat.mul_one]
  split_ifs with zero
  · have none : value = 0 := by exact_mod_cast zero
    rw [none]
    rfl
  · have positive : decide ((value : Int) < 0) = false := by
      rw [decide_eq_false_iff_not]
      omega
    rw [positive, Int.natAbs_natCast]

theorem decimalReading_digits {digits : Text} (some : digits ≠ [])
    (valid : ∀ c ∈ digits, digitOf c < 10) :
    decimalReading digits = asDouble (IntLiteral.valueIn 10 digits) := by
  have allDigits : ∀ c ∈ digits, c.isDigit = true := fun c member =>
    digitOf_lt_ten.mp (valid c member)
  obtain ⟨first, rest, rfl⟩ := List.exists_cons_of_ne_nil some
  have isDigit := allDigits first List.mem_cons_self
  have whole : (first :: rest).takeWhile Char.isDigit = first :: rest :=
    List.takeWhile_eq_self_iff.mpr allDigits
  have nothing : (first :: rest).dropWhile Char.isDigit = [] :=
    List.dropWhile_eq_nil_iff.mpr allDigits
  have noSign : ∀ sign : Char, sign.isDigit = false → (first :: rest).head? ≠ Option.some sign := by
    intro sign notDigit same
    rw [List.head?_cons, Option.some.injEq] at same
    rw [same, notDigit] at isDigit
    cases isDigit
  have lower : first.toLower = first := by
    have inside := isDigit_iff.mp isDigit
    unfold Char.toLower
    split
    next upper =>
      have above : 65 ≤ first.toNat := UInt32.le_iff_toNat_le.mp upper.1
      omega
    next => rfl
  have noWord : ∀ (word : Text) (c : Char) (letters : Text), word = c :: letters →
      c.isDigit = false → (first :: rest).map Char.toLower ≠ word := by
    intro word c letters shape notDigit same
    rw [shape, List.map_cons, List.cons.injEq, lower] at same
    rw [same.1, notDigit] at isDigit
    cases isDigit
  unfold decimalReading parseDouble
  rw [if_neg (noSign '-' rfl), if_neg (noSign '+' rfl)]
  unfold parseMagnitude
  simp only [whole, nothing]
  have notInf := noWord "inf".toList _ _ rfl rfl
  have notInfinity := noWord "infinity".toList _ _ rfl rfl
  have notNan := noWord "nan".toList _ _ rfl rfl
  rw [if_neg (not_or.mpr ⟨notInf, notInfinity⟩), if_neg notNan]
  simp only [List.head?_nil, reduceCtorEq, if_false, List.isEmpty_cons, List.isEmpty_nil,
    Bool.false_and, Bool.false_eq_true, if_true, List.append_nil, List.length_nil,
    Nat.cast_zero, Int.neg_zero, Option.getD_some]
  rw [digitsValue_eq valid, nearestDouble_zero]

/-! ### Doubles of different size -/

open Library.Binary Library in
/-- The bits a mantissa keeps, with the carry a rounding may leave. -/
theorem roundShift_bounds {mantissa shift : Nat} (large : 2 ^ (52 + shift) ≤ mantissa)
    (small : mantissa < 2 ^ (53 + shift)) :
    2 ^ 52 ≤ roundShift mantissa shift false ∧ roundShift mantissa shift false ≤ 2 ^ 53 := by
  have positive : 0 < 2 ^ shift := Nat.two_pow_pos shift
  have low : 2 ^ 52 ≤ mantissa / 2 ^ shift := by
    rw [Nat.le_div_iff_mul_le positive, ← pow_add]
    exact large
  have high : mantissa / 2 ^ shift < 2 ^ 53 := by
    rw [Nat.div_lt_iff_lt_mul positive, ← pow_add]
    exact small
  unfold roundShift
  dsimp only
  split_ifs <;> omega

open Library.Binary Library in
/-- A number's bits as a double, by the power of two below it. -/
theorem ofInt_bounds {value : Nat} (some : value ≠ 0) (bounded : Nat.log2 value ≤ 1000) :
    (Nat.log2 value + 1023) * 2 ^ 52 ≤ ofInt .binary64 value ∧
      ofInt .binary64 value ≤ (Nat.log2 value + 1024) * 2 ^ 52 := by
  have low : 2 ^ Nat.log2 value ≤ value := Nat.log2_self_le some
  have high : value < 2 ^ (Nat.log2 value + 1) := Nat.lt_log2_self
  unfold ofInt roundInt Library.Binary.round
  have notZero : ¬((value : Int) = 0) := by exact_mod_cast some
  have positive : decide ((value : Int) < 0) = false := by
    rw [decide_eq_false_iff_not]
    omega
  rw [if_neg notZero, positive, Int.natAbs_natCast, if_neg some]
  generalize Nat.log2 value = log at low high bounded ⊢
  have least : Format.minExponent .binary64 = -1074 := by decide
  have top : Format.topField .binary64 = 2047 := by decide
  have hidden : Format.binary64.precision - 1 = 52 := rfl
  have sign : signBit .binary64 false = 0 := rfl
  have target : max ((0 : Int) + (log : Int) + 1 - (Format.binary64.precision : Nat))
      (Format.minExponent .binary64) = (log : Int) - 52 := by
    have precision : (Format.binary64.precision : Int) = 53 := rfl
    rw [least, precision]
    omega
  dsimp only
  rw [target, top, hidden, sign, least]
  have kept : 2 ^ 52 ≤ (if (log : Int) - 52 ≤ 0 then value * 2 ^ (0 - ((log : Int) - 52)).toNat
      else roundShift value ((log : Int) - 52 - 0).toNat false) ∧
      (if (log : Int) - 52 ≤ 0 then value * 2 ^ (0 - ((log : Int) - 52)).toNat
      else roundShift value ((log : Int) - 52 - 0).toNat false) ≤ 2 ^ 53 := by
    split_ifs with exact
    · have shift : (0 - ((log : Int) - 52)).toNat = 52 - log := by omega
      have lowBits : 2 ^ log * 2 ^ (52 - log) = 2 ^ 52 := by rw [← pow_add]; congr 1; omega
      have highBits : 2 ^ (log + 1) * 2 ^ (52 - log) = 2 ^ 53 := by rw [← pow_add]; congr 1; omega
      rw [shift, ← lowBits, ← highBits]
      exact ⟨Nat.mul_le_mul_right _ low, Nat.mul_le_mul_right _ high.le⟩
    · have shift : ((log : Int) - 52 - 0).toNat = log - 52 := by omega
      rw [shift]
      apply roundShift_bounds
      · rwa [show 52 + (log - 52) = log by omega]
      · rwa [show 53 + (log - 52) = log + 1 by omega]
  generalize (if (log : Int) - 52 ≤ 0 then value * 2 ^ (0 - ((log : Int) - 52)).toNat
      else roundShift value ((log : Int) - 52 - 0).toNat false) = bits at kept
  have biased : ((log : Int) - 52 - -1074).toNat = log + 1022 := by omega
  have whole : ¬bits < 2 ^ 52 := by omega
  have finite : ¬2047 * 2 ^ 52 ≤ (log + 1022 + 1) * 2 ^ 52 + (bits - 2 ^ 52) := by omega
  have least : (log + 1023) * 2 ^ 52 ≤ 0 + ((log + 1022 + 1) * 2 ^ 52 + (bits - 2 ^ 52)) := by
    omega
  have most : 0 + ((log + 1022 + 1) * 2 ^ 52 + (bits - 2 ^ 52)) ≤ (log + 1024) * 2 ^ 52 := by
    omega
  rw [biased, if_neg whole, if_neg finite]
  exact ⟨least, most⟩

open Library.Binary Library in
/-- The exponent of a number as a double, by the power of two below it. -/
theorem asDouble_exponent {value : Nat} (some : value ≠ 0) (bounded : Nat.log2 value ≤ 1000) :
    ∃ mantissa exponent, asDouble value = .finite false mantissa exponent ∧
      (Nat.log2 value : Int) - 52 ≤ exponent ∧ exponent ≤ (Nat.log2 value : Int) - 51 := by
  obtain ⟨low, high⟩ := ofInt_bounds some bounded
  unfold asDouble
  generalize ofInt .binary64 value = bits at low high ⊢
  have hidden : Format.binary64.precision - 1 = 52 := rfl
  have top : Format.topField .binary64 = 2047 := by decide
  have least : Format.minExponent .binary64 = -1074 := by decide
  have width : Format.binary64.exponentBits = 11 := rfl
  unfold decode
  simp only [hidden, top, least, width]
  have field : bits / 2 ^ 52 % 2 ^ 11 = bits / 2 ^ 52 := Nat.mod_eq_of_lt (by omega)
  have positive : decide (bits / 2 ^ (52 + 11) % 2 = 1) = false := by
    rw [decide_eq_false_iff_not]
    omega
  rw [field, positive, if_neg (by omega), if_neg (by omega)]
  exact ⟨_, _, rfl, by omega, by omega⟩

/-- Numbers whose sizes differ by more than a bit are different doubles. -/
theorem asDouble_ne {small large : Nat} (some : small ≠ 0)
    (apart : Nat.log2 small + 1 < Nat.log2 large) (bounded : Nat.log2 large ≤ 1000) :
    asDouble small ≠ asDouble large := by
  have someLarge : large ≠ 0 := by
    intro zero
    rw [zero, Nat.log2_zero] at apart
    omega
  obtain ⟨_, low, lowShape, -, lowBound⟩ := asDouble_exponent some (by omega)
  obtain ⟨_, high, highShape, highBound, -⟩ := asDouble_exponent someLarge bounded
  rw [lowShape, highShape]
  intro same
  rw [Datum.finite.injEq] at same
  omega

/-! ### Suffixes and separators -/

theorem spelling_length (suffix : LiteralSuffix) : suffix.spelling.length = 3 := by
  cases suffix <;> rfl

theorem spelling_injective {left right : LiteralSuffix}
    (same : left.spelling = right.spelling) : left = right := by
  cases left <;> cases right <;> first | rfl | cases same

theorem endsWith_iff {text : Text} {suffix : LiteralSuffix} :
    endsWith text suffix = true ↔ suffix.spelling <:+ text := by
  unfold endsWith
  exact List.isSuffixOf_iff_suffix

theorem endsWith_append (front : Text) {suffix other : LiteralSuffix} :
    endsWith (front ++ suffix.spelling) other = true ↔ other = suffix := by
  rw [endsWith_iff]
  constructor
  · intro ends
    have within := List.suffix_of_suffix_length_le ends (List.suffix_append front suffix.spelling)
      (by rw [spelling_length, spelling_length])
    exact spelling_injective (within.eq_of_length (by rw [spelling_length, spelling_length]))
  · intro same
    rw [same]
    exact List.suffix_append _ _

theorem stripSuffix_iff {mark text front : Text} :
    stripSuffix mark text = some front ↔ text = front ++ mark := by
  unfold stripSuffix
  constructor
  · intro stripped
    split_ifs at stripped with ends
    obtain ⟨before, rfl⟩ := List.isSuffixOf_iff_suffix.mp ends
    rw [List.length_append, Nat.add_sub_cancel, List.take_left, Option.some.injEq] at stripped
    rw [stripped]
  · intro shape
    rw [shape, if_pos (List.isSuffixOf_iff_suffix.mpr (List.suffix_append _ _)),
      List.length_append, Nat.add_sub_cancel, List.take_left]

theorem stripNumericNoise_append (front : Text) (suffix : LiteralSuffix) :
    stripNumericNoise (front ++ suffix.spelling) = IntLiteral.bare front := by
  have ends : ∀ other : LiteralSuffix,
      other.spelling.isSuffixOf (front ++ suffix.spelling) = decide (other = suffix) :=
    fun other => Bool.eq_iff_iff.mpr ((endsWith_append front).trans decide_eq_true_iff.symm)
  have taken : (front ++ suffix.spelling).take ((front ++ suffix.spelling).length - 3) = front := by
    rw [List.length_append, spelling_length, Nat.add_sub_cancel, List.take_left]
  unfold stripNumericNoise literalSuffixes
  simp only [List.findSome?, stripSuffix, ends, spelling_length, taken]
  cases suffix <;> rfl

theorem stripNumericNoise_of_none {text : Text} (none : ∀ suffix, endsWith text suffix = false) :
    stripNumericNoise text = IntLiteral.bare text := by
  have ends : ∀ other : LiteralSuffix, other.spelling.isSuffixOf text = false := none
  unfold stripNumericNoise literalSuffixes
  simp only [List.findSome?, stripSuffix, ends]
  rfl

/-! ### Digits behind a mark -/

namespace IntLiteral

theorem bare_append (front back : Text) : bare (front ++ back) = bare front ++ bare back :=
  List.filter_append ..

theorem bare_mark (form : Form) : bare form.mark = form.mark := by
  cases form with
  | plain => rfl
  | hex upper => cases upper <;> rfl
  | binary upper => cases upper <;> rfl

theorem mem_bare {body : Text} {c : Char} : c ∈ bare body ↔ c ∈ body ∧ c ≠ '_' := by
  simp [bare]

theorem isDigit_of_mem_bare (literal : IntLiteral) {c : Char} (member : c ∈ bare literal.body) :
    digitOf c < literal.form.digitBound := by
  obtain ⟨isMember, notSeparator⟩ := mem_bare.mp member
  exact (literal.digits c isMember).resolve_right notSeparator

theorem digitBound_le (form : Form) : form.digitBound ≤ 16 := by
  cases form <;> simp [Form.digitBound]

theorem radixOf_mark {form : Form} (marked : form ≠ .plain) (digits : Text) :
    radixOf (form.mark ++ digits) = (form.digitBound, digits) := by
  cases form with
  | plain => exact absurd rfl marked
  | hex upper => cases upper <;> rfl
  | binary upper => cases upper <;> rfl

theorem radixOf_noMark {digits : Text} (valid : ∀ c ∈ digits, digitOf c < 10) :
    radixOf digits =
      if 1 < digits.length ∧ digits.head? = some '0' ∧ (digits[1]?).any Char.isDigit then
        (8, digits.tail)
      else (10, digits) := by
  have noMark : ∀ c : Char, 10 ≤ digitOf c → stripPrefix ['0', c] digits = none := by
    intro c notDigit
    unfold stripPrefix
    rw [if_neg]
    intro marked
    obtain ⟨rest, shape⟩ := List.isPrefixOf_iff_prefix.mp marked
    have isDigit := valid c (by rw [← shape]; simp)
    omega
  unfold radixOf
  rw [noMark 'x' (by decide), noMark 'X' (by decide), noMark 'b' (by decide),
    noMark 'B' (by decide)]
  rfl

theorem radixOf_zero {next : Char} {rest : Text}
    (valid : ∀ c ∈ '0' :: next :: rest, digitOf c < 10) :
    radixOf ('0' :: next :: rest) = (8, next :: rest) := by
  have isDigit := digitOf_lt_ten.mp (valid next (by simp))
  rw [radixOf_noMark valid, if_pos]
  · rfl
  · simp [isDigit]

theorem radixOf_decimal {digits : Text} (valid : ∀ c ∈ digits, digitOf c < 10)
    (noZero : ∀ next rest, digits ≠ '0' :: next :: rest) : radixOf digits = (10, digits) := by
  rw [radixOf_noMark valid, if_neg]
  rintro ⟨long, zero, -⟩
  match digits, long, zero with
  | first :: next :: rest, _, zero =>
      rw [List.head?_cons, Option.some.injEq] at zero
      exact noZero next rest (by rw [zero])

/-! ### What is left of a literal -/

variable (literal : IntLiteral)

theorem suffixText_some {suffix : LiteralSuffix} (has : literal.suffix = some suffix) :
    literal.text = literal.form.mark ++ literal.body ++ suffix.spelling := by
  unfold text suffixText
  rw [has]
  rfl

theorem suffixText_none (has : literal.suffix = none) :
    literal.text = literal.form.mark ++ literal.body := by
  unfold text suffixText
  rw [has]
  exact List.append_nil _

theorem mem_mark {form : Form} {c : Char} (member : c ∈ form.mark) :
    c ∈ ['0', 'b', 'B', 'x', 'X'] := by
  revert member
  cases form with
  | plain => exact fun impossible => by cases impossible
  | hex upper => cases upper <;> simp [Form.mark] <;> tauto
  | binary upper => cases upper <;> simp [Form.mark] <;> tauto

theorem notMem_digits {c : Char} (notDigit : literal.form.digitBound ≤ digitOf c)
    (notMark : c ∉ ['0', 'b', 'B', 'x', 'X', '_']) : c ∉ literal.form.mark ++ literal.body := by
  intro member
  rcases List.mem_append.mp member with inMark | inBody
  · have inLetters := mem_mark inMark
    exact notMark (by simp only [List.mem_cons, List.not_mem_nil, or_false] at inLetters ⊢; tauto)
  · rcases literal.digits c inBody with isDigit | same
    · unfold Form.IsDigit at isDigit
      omega
    · exact notMark (by simp [same])

/-- The last digits of a body spell a suffix where they do so with the mark in front. -/
theorem suffix_body {form : Form} {body : Text} :
    ['f', '6', '4'] <:+ form.mark ++ body ↔ ['f', '6', '4'] <:+ body := by
  refine ⟨?_, fun within => within.trans (List.suffix_append _ _)⟩
  rintro ⟨front, same⟩
  rcases List.append_eq_append_iff.mp same with ⟨middle, markShape, bodyShape⟩ | ⟨middle, -, shape⟩
  · cases middle with
    | nil => exact ⟨[], bodyShape⟩
    | cons c rest =>
        rw [List.cons_append, List.cons.injEq] at bodyShape
        have inMark : c ∈ form.mark := by rw [markShape]; simp
        have inLetters := mem_mark inMark
        rw [← bodyShape.1] at inLetters
        exact absurd inLetters (by decide)
  · exact ⟨middle, shape.symm⟩

theorem cutDigits_iff {front : Text} :
    literal.cutDigits = some front ↔ literal.suffix = none ∧ literal.form.digitBound = 16 ∧
      ∃ body, literal.body = body ++ ['f', '6', '4'] ∧ bare body = front := by
  unfold cutDigits
  split
  next upper isHex noSuffix =>
    simp only [Option.map_eq_some_iff, stripSuffix_iff, noSuffix, isHex, Form.digitBound,
      true_and]
  next other =>
    simp only [reduceCtorEq, false_iff]
    rintro ⟨noSuffix, isHex, -⟩
    cases shape : literal.form with
    | hex upper => exact absurd noSuffix (other upper shape)
    | plain | binary => rw [shape] at isHex; cases isHex

/-- Digits without a suffix end like one exactly where they are cut. -/
theorem endsWith_digits (has : literal.suffix = none) {suffix : LiteralSuffix} :
    endsWith literal.text suffix = true ↔
      suffix = .f64 ∧ ∃ front, literal.cutDigits = some front := by
  rw [endsWith_iff, literal.suffixText_none has]
  have first : ∀ (c : Char) (rest : Text), literal.form.digitBound ≤ digitOf c →
      c ∉ ['0', 'b', 'B', 'x', 'X', '_'] → ¬(c :: rest) <:+ literal.form.mark ++ literal.body :=
    fun c rest notDigit notMark within =>
      literal.notMem_digits notDigit notMark (within.subset List.mem_cons_self)
  have bound := digitBound_le literal.form
  cases suffix with
  | i32 | u32 | i64 =>
      refine ⟨fun within => absurd within (first _ _ (bound.trans (by decide)) (by decide)), ?_⟩
      rintro ⟨same, -⟩
      cases same
  | f64 =>
      simp only [true_and, cutDigits_iff, has]
      by_cases isHex : literal.form.digitBound = 16
      · simp only [isHex, true_and, LiteralSuffix.spelling, suffix_body]
        constructor
        · rintro ⟨body, shape⟩
          exact ⟨bare body, body, shape.symm, rfl⟩
        · rintro ⟨-, body, shape, -⟩
          exact ⟨body, shape.symm⟩
      · refine ⟨fun within => absurd within (first _ _ ?_ (by decide)), ?_⟩
        · cases shape : literal.form with
          | hex upper => rw [shape] at isHex; exact absurd rfl isHex
          | plain | binary => simp [Form.digitBound, digitOf]
        · rintro ⟨-, impossible, -⟩
          exact absurd impossible isHex

/-! ### One literal for a text -/

theorem notMem_plain (plain : literal.form = .plain) {c : Char} (isLetter : c ∈ ['x', 'X', 'b', 'B']) :
    c ∉ literal.text := by
  have isOne : c = 'x' ∨ c = 'X' ∨ c = 'b' ∨ c = 'B' := by simpa using isLetter
  have large : 10 ≤ digitOf c := by
    rcases isOne with rfl | rfl | rfl | rfl <;> decide
  have spelled : ∀ suffix : LiteralSuffix, c ∉ suffix.spelling := by
    intro suffix
    rcases isOne with rfl | rfl | rfl | rfl <;> cases suffix <;> decide
  intro member
  unfold text at member
  rw [plain] at member
  rcases List.mem_append.mp member with inBody | inSuffix
  · rcases literal.digits c inBody with isDigit | same
    · rw [plain] at isDigit
      exact absurd isDigit (Nat.not_lt.mpr large)
    · rw [same] at isLetter
      exact absurd isLetter (by decide)
  · unfold suffixText at inSuffix
    cases has : literal.suffix with
    | none =>
        rw [has] at inSuffix
        cases inSuffix
    | some suffix =>
        rw [has] at inSuffix
        exact spelled suffix inSuffix

theorem text_hex {upper : Bool} (isHex : literal.form = .hex upper) :
    literal.text[1]? = some (if upper then 'X' else 'x') := by
  unfold text
  rw [isHex]
  rfl

theorem text_binary {upper : Bool} (isBinary : literal.form = .binary upper) :
    literal.text[1]? = some (if upper then 'B' else 'b') := by
  unfold text
  rw [isBinary]
  rfl

theorem form_eq {left right : IntLiteral} (same : left.text = right.text) :
    left.form = right.form := by
  have letter : ∀ {first second : IntLiteral}, first.text = second.text →
      first.form = .plain → ∀ c ∈ ['x', 'X', 'b', 'B'], second.text[1]? ≠ some c := by
    intro first second same plain c isLetter here
    rw [← same] at here
    exact first.notMem_plain plain isLetter (List.mem_of_getElem? here)
  cases isLeft : left.form with
  | plain =>
      cases isRight : right.form with
      | plain => rfl
      | hex upper =>
          exact absurd (right.text_hex isRight) (letter same isLeft _ (by cases upper <;> decide))
      | binary upper =>
          exact absurd (right.text_binary isRight) (letter same isLeft _ (by cases upper <;> decide))
  | hex upper =>
      have here := left.text_hex isLeft
      cases isRight : right.form with
      | plain => exact absurd here (letter same.symm isRight _ (by cases upper <;> decide))
      | hex other =>
          rw [same, right.text_hex isRight] at here
          revert here
          cases upper <;> cases other <;> decide
      | binary other =>
          rw [same, right.text_binary isRight] at here
          revert here
          cases upper <;> cases other <;> decide
  | binary upper =>
      have here := left.text_binary isLeft
      cases isRight : right.form with
      | plain => exact absurd here (letter same.symm isRight _ (by cases upper <;> decide))
      | hex other =>
          rw [same, right.text_hex isRight] at here
          revert here
          cases upper <;> cases other <;> decide
      | binary other =>
          rw [same, right.text_binary isRight] at here
          revert here
          cases upper <;> cases other <;> decide

theorem suffix_of_text {left right : IntLiteral} (same : left.text = right.text)
    {suffix : LiteralSuffix} (has : left.suffix = some suffix) : right.suffix = some suffix := by
  have ends : endsWith right.text suffix = true := by
    rw [← same, left.suffixText_some has, endsWith_append]
  cases other : right.suffix with
  | some suffix' =>
      rw [right.suffixText_some other, endsWith_append] at ends
      rw [ends]
  | none =>
      obtain ⟨isFloat, front, cut⟩ := (right.endsWith_digits other).mp ends
      obtain ⟨-, isHex, -⟩ := right.cutDigits_iff.mp cut
      obtain ⟨upper, isBinary⟩ := left.noFloat (by rw [has, isFloat])
      rw [← form_eq same, isBinary] at isHex
      cases isHex

theorem text_injective {left right : IntLiteral} (same : left.text = right.text) :
    left = right := by
  have form := form_eq same
  have suffix : left.suffix = right.suffix := by
    cases has : left.suffix with
    | some suffix => exact (suffix_of_text same has).symm
    | none =>
        cases other : right.suffix with
        | none => rfl
        | some suffix =>
            rw [suffix_of_text same.symm other] at has
            cases has
  have body : left.body = right.body := by
    unfold text suffixText at same
    rw [form, suffix] at same
    exact List.append_cancel_left (List.append_cancel_right same)
  exact IntLiteral.ext form body suffix

/-! ### The expression of a literal -/

theorem noSign_of_digits {digits : Text} (valid : ∀ c ∈ digits, digitOf c < 16) :
    digits.head? ≠ some '+' := by
  intro sign
  have small := valid '+' (List.mem_of_mem_head? sign)
  exact absurd small (by decide)

variable {literal}

/-- What the digits give that are left when the last three are cut. -/
theorem kind_of_cut {front : Text} (cut : literal.cutDigits = some front) :
    intLiteralKind literal.text =
      if front ≠ [] ∧ valueIn 16 front < 2 ^ 64 then .float (asDouble (valueIn 16 front))
      else .float (decimalReading front) := by
  obtain ⟨noSuffix, isHex, body, shape, isFront⟩ := literal.cutDigits_iff.mp cut
  have marked : literal.form ≠ .plain := by
    intro plain
    rw [plain] at isHex
    cases isHex
  have valid : ∀ c ∈ front, digitOf c < 16 := by
    intro c member
    rw [← isHex]
    apply literal.isDigit_of_mem_bare
    rw [shape, bare_append, isFront]
    exact List.mem_append_left _ member
  have text : literal.text = (literal.form.mark ++ body) ++ LiteralSuffix.f64.spelling := by
    rw [literal.suffixText_none noSuffix, shape, List.append_assoc]
    rfl
  have notInt64 : endsWith literal.text .i64 = false := by
    rw [← Bool.not_eq_true, text, endsWith_append]
    decide
  have isFloat : endsWith literal.text .f64 = true := by
    rw [text, endsWith_append]
  have stripped : radixOf (stripNumericNoise literal.text) = (16, front) := by
    rw [text, stripNumericNoise_append, bare_append, bare_mark, isFront, radixOf_mark marked, isHex]
  unfold intLiteralKind
  simp only [stripped, notInt64, isFloat, Bool.false_eq_true, if_false, if_true]
  by_cases none : front = []
  · subst none
    rfl
  · rw [fromStrRadix_digits none (noSign_of_digits valid) valid]
    by_cases small : valueIn 16 front < 2 ^ 64
    · rw [if_pos small, if_pos ⟨none, small⟩]
    · rw [if_neg small, if_neg fun both => small both.2]

theorem endsWith_whole (whole : literal.cutDigits = none) (suffix : LiteralSuffix) :
    endsWith literal.text suffix = decide (literal.suffix = some suffix) := by
  rw [Bool.eq_iff_iff, decide_eq_true_eq]
  cases has : literal.suffix with
  | none =>
      rw [literal.endsWith_digits has, whole]
      simp
  | some other =>
      rw [literal.suffixText_some has, endsWith_append, Option.some.injEq]
      exact eq_comm

theorem stripped_whole (whole : literal.cutDigits = none) :
    stripNumericNoise literal.text = literal.form.mark ++ bare literal.body := by
  rw [← bare_mark literal.form, ← bare_append]
  cases has : literal.suffix with
  | none =>
      rw [stripNumericNoise_of_none, literal.suffixText_none has]
      intro suffix
      rw [endsWith_whole whole, has]
      rfl
  | some suffix => rw [literal.suffixText_some has, stripNumericNoise_append]

/-! ### The digits as a number -/

theorem leadsWithZero_iff : literal.leadsWithZero = true ↔
    literal.form = .plain ∧ ∃ next rest, bare literal.body = '0' :: next :: rest := by
  unfold leadsWithZero
  split
  next next rest plain shape => simp [plain, shape]
  next other =>
    simp only [Bool.false_eq_true, false_iff]
    rintro ⟨plain, next, rest, shape⟩
    exact other next rest plain shape

theorem valueIn_zero (radix : Nat) (digits : Text) :
    valueIn radix ('0' :: digits) = valueIn radix digits := by
  unfold valueIn
  rw [List.map_cons, List.reverse_cons, Nat.ofDigits_append, Nat.ofDigits_singleton]
  show _ + _ * 0 = _
  rw [Nat.mul_zero, Nat.add_zero]

/-- The digits the code reads, their radix, and the number it gets: none where there are no
digits, one is not of the radix, or the number does not fit 64 bits. -/
structure Reading (literal : IntLiteral) (read : Nat × Text) : Prop where
  radix : read.1 = if literal.leadsWithZero then 8 else literal.form.digitBound
  number : fromStrRadix read.2 read.1 =
    if bare literal.body ≠ [] ∧ ¬(literal.leadsWithZero = true ∧ ¬literal.isOctal = true) ∧
      literal.value < 2 ^ 64 then some literal.value else none
  decimal : decimalReading read.2 = decimalReading (bare literal.body)

theorem reading_of_zero (leads : literal.leadsWithZero = true) :
    Reading literal (radixOf (literal.form.mark ++ bare literal.body)) := by
  obtain ⟨plain, next, rest, shape⟩ := leadsWithZero_iff.mp leads
  have valid : ∀ c ∈ bare literal.body, digitOf c < 10 := by
    intro c member
    have isDigit := literal.isDigit_of_mem_bare member
    rwa [plain] at isDigit
  have validRest : ∀ c ∈ next :: rest, digitOf c < 10 := fun c member =>
    valid c (by rw [shape]; exact List.mem_cons_of_mem _ member)
  have read : radixOf (literal.form.mark ++ bare literal.body) = (8, next :: rest) := by
    rw [plain, shape]
    exact radixOf_zero (shape ▸ valid)
  have noSign : (next :: rest).head? ≠ some '+' :=
    noSign_of_digits fun c member => (validRest c member).trans (by decide)
  rw [read]
  constructor
  · rw [leads]
    rfl
  · by_cases octal : literal.isOctal = true
    · have small : ∀ c ∈ bare literal.body, digitOf c < 8 := by
        unfold isOctal at octal
        simpa [leads] using octal
      have number : literal.value = valueIn 8 (next :: rest) := by
        unfold value radix
        rw [if_pos octal, shape, valueIn_zero]
      rw [fromStrRadix_digits (List.cons_ne_nil _ _) noSign fun c member =>
        small c (by rw [shape]; exact List.mem_cons_of_mem _ member), ← number]
      have some : bare literal.body ≠ [] := by simp [shape]
      simp [some, octal]
    · obtain ⟨c, member, large⟩ : ∃ c ∈ bare literal.body, 8 ≤ digitOf c := by
        unfold isOctal at octal
        simpa [leads] using octal
      have inRest : c ∈ next :: rest := by
        rw [shape] at member
        refine (List.mem_cons.mp member).resolve_left fun zero => ?_
        rw [zero] at large
        exact absurd large (by decide)
      rw [fromStrRadix_invalid noSign inRest large, if_neg]
      exact fun all => all.2.1 ⟨leads, octal⟩
  · rw [decimalReading_digits (List.cons_ne_nil _ _) validRest,
      decimalReading_digits (by simp [shape]) valid, shape, valueIn_zero]

theorem reading_of_others (notZero : literal.leadsWithZero = false) :
    Reading literal (radixOf (literal.form.mark ++ bare literal.body)) := by
  have read : radixOf (literal.form.mark ++ bare literal.body) =
      (literal.form.digitBound, bare literal.body) := by
    by_cases plain : literal.form = .plain
    · have valid : ∀ c ∈ bare literal.body, digitOf c < 10 := by
        intro c member
        have isDigit := literal.isDigit_of_mem_bare member
        rwa [plain] at isDigit
      rw [plain]
      refine radixOf_decimal valid fun next rest shape => ?_
      rw [leadsWithZero_iff.mpr ⟨plain, next, rest, shape⟩] at notZero
      cases notZero
    · exact radixOf_mark plain _
  have notOctal : literal.isOctal = false := by
    unfold isOctal
    rw [notZero, Bool.false_and]
  have number : literal.value = valueIn literal.form.digitBound (bare literal.body) := by
    unfold value radix
    rw [notOctal]
    rfl
  rw [read]
  constructor
  · rw [notZero]
    rfl
  · by_cases none : bare literal.body = []
    · rw [none, if_neg fun all => all.1 rfl]
      rfl
    · rw [fromStrRadix_digits none (noSign_of_digits fun c member =>
        (literal.isDigit_of_mem_bare member).trans_le (digitBound_le _))
        fun c member => literal.isDigit_of_mem_bare member, ← number]
      simp [none, notZero]
  · rfl

theorem reading (literal : IntLiteral) :
    Reading literal (radixOf (literal.form.mark ++ bare literal.body)) := by
  cases leads : literal.leadsWithZero with
  | true => exact reading_of_zero leads
  | false => exact reading_of_others leads

def ofNumber (literal : IntLiteral) : ExprKind :=
  match literal.suffix with
  | some .i64 => int64Make (asInt32 (literal.value / 2 ^ 32)) (asInt32 literal.value)
  | some .f64 => .float (asDouble literal.value)
  | some _ =>
      if literal.value ≤ u32Max then .int (asInt32 literal.value) else .int (asInt64 literal.value)
  | none =>
      if literal.radix ≠ 10 ∧ literal.value ≤ u32Max then .int (asInt32 literal.value)
      else if literal.radix = 10 ∧ literal.value ≤ i32Max then .int literal.value
      else .float (asDouble literal.value)

theorem radix_of_number (octal : ¬(literal.leadsWithZero = true ∧ ¬literal.isOctal = true)) :
    (if literal.leadsWithZero then 8 else literal.form.digitBound) = literal.radix := by
  unfold radix
  cases leads : literal.leadsWithZero with
  | true =>
      have isOctal : literal.isOctal = true := by
        by_contra notOctal
        exact octal ⟨leads, notOctal⟩
      rw [isOctal]
  | false =>
      have notOctal : literal.isOctal = false := by
        unfold isOctal
        rw [leads, Bool.false_and]
      rw [notOctal]

theorem kind_of_whole (whole : literal.cutDigits = none) :
    intLiteralKind literal.text =
      if bare literal.body ≠ [] ∧ ¬(literal.leadsWithZero = true ∧ ¬literal.isOctal = true) ∧
        literal.value < 2 ^ 64 then literal.ofNumber
      else .float (decimalReading (bare literal.body)) := by
  have isBase := (reading literal).radix
  have isNumber := (reading literal).number
  have isDecimal := (reading literal).decimal
  have stripped := stripped_whole whole
  have ends : endsWith literal.text = fun suffix => decide (literal.suffix = some suffix) :=
    funext (endsWith_whole whole)
  unfold intLiteralKind
  rw [stripped]
  dsimp only
  by_cases number : bare literal.body ≠ [] ∧
      ¬(literal.leadsWithZero = true ∧ ¬literal.isOctal = true) ∧ literal.value < 2 ^ 64
  · rw [isNumber, if_pos number, if_pos number]
    rw [radix_of_number number.2.1] at isBase
    dsimp only
    rw [isBase]
    simp only [literalSuffixes, ends]
    unfold ofNumber
    cases literal.suffix with
    | none => simp
    | some suffix => cases suffix <;> simp
  · rw [isNumber, if_neg number, if_neg number]
    dsimp only
    rw [isDecimal]

/-! ### Which expressions mean the number -/

theorem asInt32_of_small {value : Nat} (small : value ≤ i32Max) : asInt32 value = value := by
  unfold asInt32 i32Max at *
  rw [BitVec.toInt_eq_toNat_cond, BitVec.toNat_ofNat]
  split_ifs <;> omega

theorem means_float {value : Datum} :
    literal.Means (.float value) ↔ literal.suffix ≠ some .i64 ∧
      (literal.suffix = some .f64 ∨ ¬literal.FitsInt) ∧ value = asDouble literal.value := by
  unfold Means
  cases has : literal.suffix with
  | none => by_cases fits : literal.FitsInt <;> simp [fits]
  | some suffix =>
      cases suffix with
      | i64 => simp [int64Make]
      | f64 => simp
      | i32 | u32 => by_cases fits : literal.FitsInt <;> simp [fits]

theorem notFits_of_large (large : ¬literal.value < 2 ^ 64) : ¬literal.FitsInt := by
  unfold FitsInt i32Max u32Max
  split_ifs <;> omega

theorem value_of_cut {front : Text} (cut : literal.cutDigits = some front) :
    literal.value = valueIn 16 front * 4096 + 3940 := by
  obtain ⟨-, isHex, body, shape, isFront⟩ := literal.cutDigits_iff.mp cut
  have notPlain : literal.leadsWithZero = false := by
    rw [← Bool.not_eq_true, leadsWithZero_iff]
    rintro ⟨plain, -⟩
    rw [plain] at isHex
    cases isHex
  have base : literal.radix = 16 := by
    unfold radix isOctal
    rw [notPlain, Bool.false_and, isHex]
    rfl
  have digits : bare literal.body = front ++ ['f', '6', '4'] := by
    rw [shape, bare_append, isFront]
    rfl
  unfold value valueIn
  rw [base, digits, List.map_append, List.reverse_append, Nat.ofDigits_append]
  have last : Nat.ofDigits 16 (['f', '6', '4'].map digitOf).reverse = 3940 := by decide
  have length : (['f', '6', '4'].map digitOf).reverse.length = 3 := rfl
  rw [last, length]
  omega

theorem means_ofNumber (fits : literal.value < 2 ^ 64) :
    literal.Means literal.ofNumber ↔
      (literal.suffix = some .i32 ∨ literal.suffix = some .u32 → literal.FitsInt) := by
  unfold Means ofNumber FitsInt
  cases has : literal.suffix with
  | none =>
      by_cases decimal : literal.radix = 10
      · by_cases small : literal.value ≤ i32Max
        · simp [decimal, small, asInt32_of_small small]
        · simp [decimal, small]
      · by_cases small : literal.value ≤ u32Max
        · simp [decimal, small]
        · simp [decimal, small]
  | some suffix =>
      cases suffix with
      | i64 =>
          simp only [Option.some.injEq, reduceCtorEq, or_self, false_imp_iff, iff_true]
          refine ⟨BitVec.ofNat 32 (literal.value / 2 ^ 32), BitVec.ofNat 32 literal.value, rfl, ?_⟩
          simp only [BitVec.toNat_ofNat]
          omega
      | f64 => simp
      | i32 | u32 =>
          by_cases small : literal.value ≤ u32Max
          · simp [small]
          · simp [small]

/-- Decimal digits that are read as a float keep their number. -/
theorem decimalReading_of_decimal (decimal : literal.radix = 10) (some : bare literal.body ≠ []) :
    decimalReading (bare literal.body) = asDouble literal.value := by
  have plain : literal.form.digitBound = 10 := by
    unfold radix at decimal
    split_ifs at decimal with octal
    · cases decimal
    · exact decimal
  unfold value
  rw [decimal]
  apply decimalReading_digits some
  intro c member
  rw [← plain]
  exact literal.isDigit_of_mem_bare member

theorem radix_of_mixed (mixed : literal.leadsWithZero = true ∧ ¬literal.isOctal = true) :
    literal.radix = 10 := by
  unfold radix
  rw [if_neg mixed.2, (leadsWithZero_iff.mp mixed.1).1]
  rfl

/-- Three digits more make a different double. -/
theorem asDouble_cut {front : Nat} (small : front < 2 ^ 64) (large : i32Max < front * 4096 + 3940) :
    asDouble front ≠ asDouble (front * 4096 + 3940) := by
  have some : front ≠ 0 := by
    intro zero
    rw [zero] at large
    exact absurd large (by decide)
  have low : 2 ^ Nat.log2 front ≤ front := Nat.log2_self_le some
  apply asDouble_ne some
  · show Nat.log2 front + 2 ≤ _
    rw [Nat.le_log2 (by omega), pow_add]
    omega
  · have bound : Nat.log2 (front * 4096 + 3940) < 77 := by
      rw [Nat.log2_lt (by omega)]
      omega
    omega

theorem means_iff_of_cut {front : Text} (cut : literal.cutDigits = some front) :
    literal.Means (intLiteralKind literal.text) ↔
      2 ^ 64 ≤ valueIn 16 front ∧ decimalReading front = asDouble literal.value := by
  obtain ⟨noSuffix, isHex, -⟩ := literal.cutDigits_iff.mp cut
  have number := value_of_cut cut
  rw [kind_of_cut cut]
  by_cases read : front ≠ [] ∧ valueIn 16 front < 2 ^ 64
  · rw [if_pos read, means_float]
    constructor
    · rintro ⟨-, large, same⟩
      have notFits : ¬literal.FitsInt := large.resolve_left (by simp [noSuffix])
      refine absurd (number ▸ same) (asDouble_cut read.2 ?_)
      unfold FitsInt u32Max i32Max at notFits
      unfold i32Max
      rw [← number]
      split_ifs at notFits <;> omega
    · rintro ⟨large, -⟩
      omega
  · rw [if_neg read, means_float]
    by_cases none : front = []
    · subst none
      have fits : literal.FitsInt := by
        have zero : valueIn 16 [] = 0 := rfl
        unfold FitsInt u32Max i32Max
        rw [number, zero]
        split_ifs <;> omega
      have zero : ¬2 ^ 64 ≤ valueIn 16 [] := by decide
      exact iff_of_false (fun means => means.2.1.elim (by simp [noSuffix]) fun notFits =>
        notFits fits) fun both => zero both.1
    · have large : 2 ^ 64 ≤ valueIn 16 front := Nat.le_of_not_lt fun small => read ⟨none, small⟩
      have notFits : ¬literal.FitsInt := notFits_of_large (by omega)
      rw [and_iff_right large]
      simp [noSuffix, notFits]

theorem not_means_of_nil (none : bare literal.body = []) (value : Datum) :
    ¬literal.Means (.float value) := by
  rw [means_float]
  rintro ⟨-, large, -⟩
  have zero : literal.value = 0 := by
    unfold IntLiteral.value
    rw [none]
    rfl
  have fits : literal.FitsInt := by
    unfold FitsInt
    rw [zero]
    split_ifs <;> exact Nat.zero_le _
  obtain ⟨upper, isBinary⟩ := literal.noFloat (large.resolve_right fun notFits => notFits fits)
  obtain ⟨c, rest, shape, isDigit⟩ := literal.starts (by simp [isBinary])
  have notSeparator : c ≠ '_' := by
    intro same
    rw [same, isBinary] at isDigit
    exact absurd isDigit (by simp [Form.IsDigit, Form.digitBound, digitOf])
  have member : c ∈ bare literal.body := mem_bare.mpr ⟨by simp [shape], notSeparator⟩
  rw [none] at member
  cases member

theorem means_iff_kept (literal : IntLiteral) :
    literal.Means (intLiteralKind literal.text) ↔ literal.Kept := by
  unfold Kept
  cases cut : literal.cutDigits with
  | some front => exact means_iff_of_cut cut
  | none =>
      dsimp only
      rw [kind_of_whole cut]
      by_cases none : bare literal.body = []
      · rw [if_neg fun all => all.1 none]
        exact iff_of_false (not_means_of_nil none _) fun all => all.1 none
      by_cases mixed : literal.leadsWithZero = true ∧ ¬literal.isOctal = true
      · have decimal := radix_of_mixed mixed
        have notFloat : literal.suffix ≠ some .f64 := by
          intro isFloat
          obtain ⟨upper, isBinary⟩ := literal.noFloat isFloat
          rw [(leadsWithZero_iff.mp mixed.1).1] at isBinary
          cases isBinary
        rw [if_neg fun all => all.2.1 mixed, if_pos mixed, means_float,
          decimalReading_of_decimal decimal none]
        simp [none, notFloat]
      by_cases fits : literal.value < 2 ^ 64
      · rw [if_pos ⟨none, mixed, fits⟩, means_ofNumber fits, if_neg mixed, if_pos fits,
          and_iff_right none]
      · rw [if_neg fun all => fits all.2.2, if_neg mixed, if_neg fits, and_iff_right none,
          means_float]
        have notFits := notFits_of_large fits
        constructor
        · rintro ⟨notInt64, -, same⟩
          exact ⟨notInt64, Or.inr same⟩
        · rintro ⟨notInt64, decimal | same⟩
          · exact ⟨notInt64, Or.inr notFits, decimalReading_of_decimal decimal none⟩
          · exact ⟨notInt64, Or.inr notFits, same⟩

end IntLiteral

end Rayzor.Parser
