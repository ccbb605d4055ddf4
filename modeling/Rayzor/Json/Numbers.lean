import Rayzor.Json.Grammar
import Rayzor.Json.Printer

/-!
Contract: numbers, printed and parsed.
-/

namespace Rayzor.Json

theorem digitByte_toNat {digit : Nat} (small : digit < 10) :
    (digitByte digit).toNat = 48 + digit := by
  rw [digitByte, UInt8.toNat_ofNat']
  exact Nat.mod_eq_of_lt (by omega)

theorem isDigitByte_digitByte :
    ∀ {digit : Nat}, digit < 10 → isDigitByte (digitByte digit) = true := by
  decide

theorem number_append (digits : List Nat) (digit : Nat) :
    number (digits ++ [digit]) = number digits * 10 + digit := by
  rw [number, List.foldl_append]
  rfl

/-- The printer's digits of a number that the buffer has room for. -/
theorem itoaDigits_eq : ∀ (slots value : Nat) (later : Bytes), value < 10 ^ slots →
    ∃ digits : List Nat, itoaDigits slots value later = digits.map digitByte ++ later ∧
      (∀ digit ∈ digits, digit < 10) ∧ number digits = value ∧ digits.head? ≠ some 0
  | 0, value, later, fits => ⟨[], rfl, fun digit isIn => absurd isIn List.not_mem_nil,
      by rw [Nat.pow_zero] at fits; rw [Nat.lt_one_iff.mp fits]; rfl, by simp⟩
  | slots + 1, value, later, fits => by
      rw [itoaDigits]
      split_ifs with zero
      · exact ⟨[], rfl, fun digit isIn => absurd isIn List.not_mem_nil, zero ▸ rfl, by simp⟩
      · have smaller : value / 10 < 10 ^ slots := by
          rw [Nat.pow_succ] at fits
          omega
        obtain ⟨digits, isDigits, small, isNumber, leading⟩ :=
          itoaDigits_eq slots (value / 10) (digitByte (value % 10) :: later) smaller
        refine ⟨digits ++ [value % 10], ?_, ?_, ?_, ?_⟩
        · show itoaDigits slots (value / 10) (digitByte (value % 10) :: later) = _
          rw [isDigits, List.map_append, List.append_assoc]
          rfl
        · intro digit isIn
          rcases List.mem_append.mp isIn with isEarlier | isLast
          · exact small digit isEarlier
          · rw [List.mem_singleton.mp isLast]
            omega
        · rw [number_append, isNumber]
          omega
        · cases digits with
          | nil =>
              have single : value / 10 = 0 := isNumber.symm
              show some (value % 10) ≠ some 0
              intro same
              have last := Option.some.inj same
              omega
          | cons digit digits => exact leading

theorem itoaDigits_isDigits {value : Nat} (positive : value ≠ 0) (fits : value < 10 ^ 20) :
    ∃ digits : List Nat, itoaDigits 20 value [] = digits.map digitByte ∧ IsDigits digits ∧
      number digits = value := by
  obtain ⟨digits, isText, small, isNumber, leading⟩ := itoaDigits_eq 20 value [] fits
  refine ⟨digits, by rw [isText, List.append_nil], ⟨?_, small, ?_⟩, isNumber⟩
  · intro isNil
    rw [isNil] at isNumber
    exact positive isNumber.symm
  · exact fun isZero => absurd isZero leading

theorem isDigits_zero : IsDigits [0] := ⟨by simp, by simp, fun _ => rfl⟩

/-- The printer's digits, of zero too. -/
theorem itoa_digits {value : Nat} (fits : value < 10 ^ 20) :
    ∃ digits : List Nat, (if value = 0 then [byte '0'] else itoaDigits 20 value []) =
      digits.map digitByte ∧ IsDigits digits ∧ number digits = value := by
  split_ifs with zero
  · exact ⟨[0], rfl, isDigits_zero, zero.symm⟩
  · exact itoaDigits_isDigits zero fits

theorem itoa_isInt (value : BitVec 64) : IsInt (itoa value) value := by
  rw [itoa]
  split_ifs with least below
  · have digits : IsDigits [9, 2, 2, 3, 3, 7, 2, 0, 3, 6, 8, 5, 4, 7, 7, 5, 8, 0, 8] :=
      ⟨by simp, by decide, by simp⟩
    rw [least]
    exact IsInt.negative digits (by decide)
  · have bound : (-value).toNat < 2 ^ 63 := by
      rw [BitVec.toNat_neg]
      have notLeast : value.toNat ≠ 2 ^ 63 := by
        intro same
        exact least (BitVec.eq_of_toNat_eq same)
      rw [BitVec.toInt_eq_toNat_cond] at below
      have small := value.isLt
      split_ifs at below <;> omega
    obtain ⟨digits, isText, isDigits, isNumber⟩ :=
      itoa_digits (lt_trans bound (by decide : 2 ^ 63 < 10 ^ 20))
    have result := IsInt.negative isDigits (by rw [isNumber]; exact Nat.le_of_lt bound)
    rw [isNumber, BitVec.ofNat_toNat, BitVec.setWidth_eq, BitVec.neg_neg] at result
    dsimp only
    rw [isText]
    exact result
  · have bound : value.toNat < 2 ^ 63 := by
      rw [BitVec.toInt_eq_toNat_cond] at below
      have small := value.isLt
      split_ifs at below <;> omega
    obtain ⟨digits, isText, isDigits, isNumber⟩ :=
      itoa_digits (lt_trans bound (by decide : 2 ^ 63 < 10 ^ 20))
    have result := IsInt.positive isDigits (by rw [isNumber]; exact bound)
    rw [isNumber, BitVec.ofNat_toNat, BitVec.setWidth_eq] at result
    dsimp only
    rw [isText]
    exact result

/-- What follows does not continue a number. -/
def EndsNumber (rest : Bytes) : Prop :=
  ∀ b, rest.head? = some b →
    isDigitByte b = false ∧ b ≠ byte '.' ∧ b ≠ byte 'e' ∧ b ≠ byte 'E'

theorem le_number_foldl (digits : List Nat) (value : Nat) :
    value ≤ digits.foldl (fun number digit => number * 10 + digit) value := by
  induction digits generalizing value with
  | nil => exact Nat.le_refl _
  | cons digit digits ih =>
      have later := ih (value * 10 + digit)
      rw [List.foldl_cons]
      omega

theorem accumulate_digits (digits : List Nat) (value : Nat) (small : ∀ digit ∈ digits, digit < 10)
    (fits : digits.foldl (fun number digit => number * 10 + digit) value < 2 ^ 64) :
    (digits.map digitByte).foldl accumulate (value, false) =
      (digits.foldl (fun number digit => number * 10 + digit) value, false) := by
  induction digits generalizing value with
  | nil => rfl
  | cons digit digits ih =>
      have isSmall := small digit List.mem_cons_self
      rw [List.foldl_cons] at fits
      have bound := le_number_foldl digits (value * 10 + digit)
      have step : accumulate (value, false) (digitByte digit) = (value * 10 + digit, false) := by
        have isDigit : (digitByte digit).toNat - (byte '0').toNat = digit := by
          rw [digitByte_toNat isSmall]
          exact Nat.add_sub_cancel_left 48 digit
        rw [accumulate]
        dsimp only
        rw [isDigit, Nat.mod_eq_of_lt (by omega), Nat.mod_eq_of_lt (by omega),
          decide_eq_false (by omega), decide_eq_false (by omega)]
        rfl
      rw [List.map_cons, List.foldl_cons, step, List.foldl_cons]
      exact ih _ (fun digit isIn => small digit (List.mem_cons_of_mem _ isIn)) fits

theorem takeWhile_digits {digits : List Nat} {rest : Bytes}
    (small : ∀ digit ∈ digits, digit < 10) (ends : EndsNumber rest) :
    (digits.map digitByte ++ rest).takeWhile isDigitByte = digits.map digitByte ∧
      (digits.map digitByte ++ rest).dropWhile isDigitByte = rest := by
  have all : ∀ b ∈ digits.map digitByte, isDigitByte b = true := by
    intro b isIn
    obtain ⟨digit, isDigit, rfl⟩ := List.mem_map.mp isIn
    exact isDigitByte_digitByte (small digit isDigit)
  rw [List.takeWhile_append_of_pos all, List.dropWhile_append_of_pos all]
  cases rest with
  | nil => exact ⟨List.append_nil _, rfl⟩
  | cons b rest =>
      have stops := (ends b rfl).1
      rw [List.takeWhile_cons_of_neg (by rw [stops]; exact Bool.false_ne_true),
        List.dropWhile_cons_of_neg (by rw [stops]; exact Bool.false_ne_true)]
      exact ⟨List.append_nil _, rfl⟩

theorem startsFraction_of_ends {rest : Bytes} (ends : EndsNumber rest) :
    startsFraction rest = false ∧ startsExponent rest = false ∧ skipFraction rest = rest ∧
      skipExponent rest = rest := by
  have noMark : ∀ mark, (mark = byte '.' ∨ mark = byte 'e' ∨ mark = byte 'E') →
      rest.head? ≠ some mark := by
    intro mark isMark starts
    obtain ⟨_, notPoint, notLower, notUpper⟩ := ends mark starts
    rcases isMark with same | same | same
    · exact notPoint same
    · exact notLower same
    · exact notUpper same
  have notPoint := noMark (byte '.') (Or.inl rfl)
  have notLower := noMark (byte 'e') (Or.inr (Or.inl rfl))
  have notUpper := noMark (byte 'E') (Or.inr (Or.inr rfl))
  refine ⟨decide_eq_false notPoint, ?_, if_neg notPoint, if_neg ?_⟩
  · rw [startsExponent, Bool.or_eq_false_iff]
    exact ⟨decide_eq_false notLower, decide_eq_false notUpper⟩
  · exact not_or.mpr ⟨notLower, notUpper⟩

theorem parseNumber_digits {digits : List Nat} {rest : Bytes} (isDigits : IsDigits digits)
    (fits : number digits < 2 ^ 64) (ends : EndsNumber rest) :
    ((digits.map digitByte ++ rest).takeWhile isDigitByte).foldl accumulate (0, false) =
        (number digits, false) ∧
      (digits.map digitByte ++ rest).dropWhile isDigitByte = rest ∧
      (digits.map digitByte ++ rest).head? ≠ some (byte '-') := by
  obtain ⟨isTaken, isLeft⟩ := takeWhile_digits isDigits.small ends
  refine ⟨?_, isLeft, ?_⟩
  · rw [isTaken]
    exact accumulate_digits digits 0 isDigits.small fits
  · obtain ⟨digit, more, shape⟩ := List.exists_cons_of_ne_nil isDigits.nonempty
    rw [shape, List.map_cons, List.cons_append, List.head?_cons, ne_eq, Option.some.injEq]
    intro same
    have isDigit := isDigitByte_digitByte (isDigits.small digit (shape ▸ List.mem_cons_self))
    rw [same] at isDigit
    exact absurd isDigit (by decide)

/-- The parser reads a number of the grammar, unless it is the least one and the
build checks its negation. -/
theorem parseNumber_eq (platform : Platform) {text rest : Bytes} {value : BitVec 64}
    (isInt : IsInt text value) (ends : EndsNumber rest) :
    parseNumber platform (text ++ rest) =
      if platform.overflowChecks = true ∧ value = BitVec.intMin 64 then .error .overflow
      else .ok (.int value, rest) := by
  obtain ⟨noFraction, noExponent, fraction, exponent⟩ := startsFraction_of_ends ends
  cases isInt with
  | @positive digits isDigits fits =>
      obtain ⟨isNumber, isLeft, unsigned⟩ := parseNumber_digits isDigits (by omega) ends
      have notLeast : BitVec.ofNat 64 (number digits) ≠ BitVec.intMin 64 := by
        intro same
        have value := congrArg BitVec.toNat same
        rw [BitVec.toNat_ofNat, Nat.mod_eq_of_lt (by omega)] at value
        rw [value] at fits
        exact absurd fits (by decide)
      rw [parseNumber]
      simp only [if_neg unsigned, isNumber, isLeft, fraction, exponent,
        noFraction, noExponent, Bool.false_eq_true, or_self, if_false]
      rw [if_neg fun both => notLeast both.2]
  | @negative digits isDigits fits =>
      obtain ⟨isNumber, isLeft, _⟩ := parseNumber_digits isDigits (by omega) ends
      have least : -BitVec.ofNat 64 (number digits) = BitVec.intMin 64 ↔
          BitVec.ofNat 64 (number digits) = BitVec.intMin 64 := by
        rw [BitVec.neg_eq_iff_eq_neg, BitVec.neg_intMin]
      rw [parseNumber, List.cons_append]
      simp only [List.head?_cons, List.tail_cons, if_true, isNumber, isLeft, fraction,
        exponent, noFraction, noExponent, Bool.false_eq_true, or_self, if_false, least]

end Rayzor.Json
