import Rayzor.Library.Binary

/-!
Contract: what rounding to nearest keeps of an exact value, and that truncating
the rounded quotient of two integers loses nothing when their sum fits the
precision.

Owns: the datum a normal pattern decodes to, the datum an exact value is rounded
to, the datum of an integer, and the truncated quotient.
-/

namespace Rayzor.Library

/-- The exponents reach far enough for integers of the precision and their
quotients to be normal. -/
structure Format.Roomy (format : Format) : Prop where
  precise : 2 ≤ format.precision
  wide : 2 * format.precision + 4 ≤ 2 ^ (format.exponentBits - 1)

theorem Format.binary64_roomy : Format.binary64.Roomy := ⟨by decide, by decide⟩

namespace Format.Roomy

variable {format : Format} (roomy : format.Roomy)

include roomy

theorem two_pow_exponentBits :
    2 ^ format.exponentBits = 2 * 2 ^ (format.exponentBits - 1) := by
  have wide := roomy.wide
  have nonzero : format.exponentBits ≠ 0 := by
    intro zero
    rw [zero] at wide
    have precise := roomy.precise
    omega
  rw [← pow_succ', Nat.sub_add_cancel (Nat.one_le_iff_ne_zero.mpr nonzero)]

theorem two_pow_precision :
    2 ^ format.precision = 2 * 2 ^ (format.precision - 1) := by
  rw [← pow_succ', Nat.sub_add_cancel (Nat.le_of_succ_le roomy.precise)]

end Format.Roomy

theorem log2_eq_of_bounds {number place : Nat} (low : 2 ^ place ≤ number)
    (high : number < 2 ^ (place + 1)) : Nat.log2 number = place := by
  have nonzero : number ≠ 0 := (Nat.lt_of_lt_of_le (Nat.two_pow_pos place) low).ne'
  apply Nat.le_antisymm
  · exact Nat.lt_succ_iff.mp ((Nat.log2_lt nonzero).mpr high)
  · exact (Nat.le_log2 nonzero).mpr low

/-- Shifted up to the full precision. -/
theorem normalized_bounds {number places : Nat} (nonzero : number ≠ 0)
    (fits : number.log2 ≤ places) :
    2 ^ places ≤ number * 2 ^ (places - number.log2) ∧
      number * 2 ^ (places - number.log2) < 2 ^ (places + 1) := by
  have low : 2 ^ number.log2 ≤ number := Nat.log2_self_le nonzero
  have high : number < 2 ^ (number.log2 + 1) := Nat.lt_log2_self
  constructor
  · calc 2 ^ places = 2 ^ number.log2 * 2 ^ (places - number.log2) := by
          rw [← pow_add, Nat.add_sub_cancel' fits]
      _ ≤ number * 2 ^ (places - number.log2) := Nat.mul_le_mul_right _ low
  · calc number * 2 ^ (places - number.log2)
        < 2 ^ (number.log2 + 1) * 2 ^ (places - number.log2) :=
          Nat.mul_lt_mul_of_pos_right high (Nat.two_pow_pos _)
      _ = 2 ^ (places + 1) := by
          rw [← pow_add]
          congr 1
          omega

namespace Datum

def signed (negative : Bool) (magnitude : Nat) : Int :=
  if negative then -(magnitude : Int) else magnitude

@[simp] theorem natAbs_signed (negative : Bool) (magnitude : Nat) :
    (signed negative magnitude).natAbs = magnitude := by
  cases negative
  · exact Int.natAbs_natCast _
  · exact (Int.natAbs_neg _).trans (Int.natAbs_natCast _)

theorem signed_lt_zero (negative : Bool) {magnitude : Nat} (nonzero : magnitude ≠ 0) :
    decide (signed negative magnitude < 0) = negative := by
  cases negative
  · simp [signed]
  · simp [signed, Nat.pos_of_ne_zero nonzero]

theorem truncInt_of_nonneg (negative : Bool) (mantissa places : Nat) :
    (Datum.finite negative mantissa (places : Int)).truncInt =
      signed negative (mantissa * 2 ^ places) := by
  simp [truncInt, signed]

theorem truncInt_of_nonpos (negative : Bool) (mantissa places : Nat) :
    (Datum.finite negative mantissa (-(places : Int))).truncInt =
      signed negative (mantissa / 2 ^ places) := by
  unfold truncInt signed
  by_cases zero : places = 0
  · subst zero
    simp
  · have below : ¬ (0 : Int) ≤ -(places : Int) := by omega
    simp only [below, if_false, neg_neg, Int.toNat_natCast]

/-- No fractional part. -/
def isWhole : Datum → Bool
  | .finite _ mantissa exponent =>
      decide (0 ≤ exponent) || mantissa % 2 ^ (-exponent).toNat == 0
  | _ => false

theorem dvd_of_isWhole {negative : Bool} {mantissa places : Nat}
    (whole : (Datum.finite negative mantissa (-(places : Int))).isWhole = true) :
    2 ^ places ∣ mantissa := by
  by_cases zero : places = 0
  · subst zero
    exact one_dvd _
  · have below : ¬ (0 : Int) ≤ -(places : Int) := by omega
    simp only [isWhole, decide_eq_false below, Bool.false_or, beq_iff_eq, neg_neg,
      Int.toNat_natCast] at whole
    exact Nat.dvd_of_mod_eq_zero whole

theorem truncInt_double (negative : Bool) (mantissa places : Nat) :
    (Datum.finite negative mantissa (-(places : Int) + 1)).truncInt =
      signed negative (2 * mantissa / 2 ^ places) := by
  cases places with
  | zero =>
      unfold truncInt signed
      simp [Nat.mul_comm]
  | succ places =>
      have exponent : -((places + 1 : Nat) : Int) + 1 = -(places : Int) := by omega
      rw [exponent, truncInt_of_nonpos, pow_succ', Nat.mul_div_mul_left _ _ (by decide)]

end Datum

namespace Binary

variable {format : Format}

theorem decode_normal {negative : Bool} {field fraction : Nat} (positive : 0 < field)
    (below : field < format.topField) (small : fraction < 2 ^ (format.precision - 1)) :
    decode format (signBit format negative + (field * 2 ^ (format.precision - 1) + fraction)) =
      .finite negative (fraction + 2 ^ (format.precision - 1))
        (format.minExponent + (field : Int) - 1) := by
  have inField : field < 2 ^ format.exponentBits := Nat.lt_of_lt_of_le below (Nat.sub_le _ _)
  have hiddenPos : 0 < 2 ^ (format.precision - 1) := Nat.two_pow_pos _
  have isSign : signBit format negative =
      (if negative then 2 ^ format.exponentBits else 0) * 2 ^ (format.precision - 1) := by
    cases negative
    · simp [signBit]
    · simp [signBit, pow_add, Nat.mul_comm]
  have shape : signBit format negative + (field * 2 ^ (format.precision - 1) + fraction) =
      fraction + ((if negative then 2 ^ format.exponentBits else 0) + field) *
        2 ^ (format.precision - 1) := by
    rw [isSign, Nat.add_mul]
    omega
  have isFraction : (signBit format negative +
      (field * 2 ^ (format.precision - 1) + fraction)) % 2 ^ (format.precision - 1) = fraction := by
    rw [shape, Nat.add_mul_mod_self_right, Nat.mod_eq_of_lt small]
  have upper : (signBit format negative +
      (field * 2 ^ (format.precision - 1) + fraction)) / 2 ^ (format.precision - 1) =
        (if negative then 2 ^ format.exponentBits else 0) + field := by
    rw [shape, Nat.add_mul_div_right _ _ hiddenPos, Nat.div_eq_of_lt small, Nat.zero_add]
  have isField : ((if negative then 2 ^ format.exponentBits else 0) + field) %
      2 ^ format.exponentBits = field := by
    cases negative
    · simp [Nat.mod_eq_of_lt inField]
    · simp [Nat.mod_eq_of_lt inField]
  have isNegative : ((if negative then 2 ^ format.exponentBits else 0) + field) /
      2 ^ format.exponentBits % 2 = if negative then 1 else 0 := by
    cases negative
    · simp [Nat.div_eq_of_lt inField]
    · simp [Nat.add_div_left _ (Nat.two_pow_pos _), Nat.div_eq_of_lt inField]
  unfold decode
  simp only [isFraction, pow_add, ← Nat.div_div_eq_div_mul, upper, isField, isNegative,
    below.ne, positive.ne', if_false]
  cases negative <;> rfl

theorem decode_zero (roomy : format.Roomy) (negative : Bool) :
    decode format (signBit format negative) = .finite negative 0 format.minExponent := by
  have top : format.topField ≠ 0 := by
    unfold Format.topField
    have bits := roomy.two_pow_exponentBits
    have wide := roomy.wide
    omega
  have divides : 2 ^ (format.precision - 1 + format.exponentBits) =
      2 ^ format.exponentBits * 2 ^ (format.precision - 1) := by rw [pow_add, Nat.mul_comm]
  unfold decode
  cases negative
  · simp [signBit, top.symm]
  · have fraction : 2 ^ (format.precision - 1 + format.exponentBits) %
        2 ^ (format.precision - 1) = 0 := by rw [divides, Nat.mul_mod_left]
    have field : 2 ^ (format.precision - 1 + format.exponentBits) / 2 ^ (format.precision - 1) =
        2 ^ format.exponentBits := by
      rw [divides, Nat.mul_div_cancel _ (Nat.two_pow_pos _)]
    simp [signBit, fraction, field, top.symm, Nat.div_self (Nat.two_pow_pos _)]

/-- Bits above the sign are not looked at. -/
theorem decode_mod (format : Format) (bits : Nat) :
    decode format (bits % 2 ^ (format.precision - 1 + format.exponentBits + 1)) =
      decode format bits := by
  have fraction : bits % 2 ^ (format.precision - 1 + format.exponentBits + 1) %
      2 ^ (format.precision - 1) = bits % 2 ^ (format.precision - 1) :=
    Nat.mod_mod_of_dvd _ (pow_dvd_pow 2 (by omega))
  have upper : bits % 2 ^ (format.precision - 1 + format.exponentBits + 1) /
      2 ^ (format.precision - 1) =
      bits / 2 ^ (format.precision - 1) % 2 ^ (format.exponentBits + 1) := by
    rw [Nat.add_assoc, pow_add, Nat.mod_mul_right_div_self]
  have field : bits / 2 ^ (format.precision - 1) % 2 ^ (format.exponentBits + 1) %
      2 ^ format.exponentBits = bits / 2 ^ (format.precision - 1) % 2 ^ format.exponentBits :=
    Nat.mod_mod_of_dvd _ (pow_dvd_pow 2 (Nat.le_succ _))
  have sign : bits % 2 ^ (format.precision - 1 + format.exponentBits + 1) /
      2 ^ (format.precision - 1 + format.exponentBits) % 2 =
      bits / 2 ^ (format.precision - 1 + format.exponentBits) % 2 := by
    rw [pow_succ, Nat.mod_mul_right_div_self, Nat.mod_mod]
  unfold decode
  simp only [fraction, upper, field, sign]

theorem roundShift_cases (mantissa shift : Nat) (sticky : Bool) :
    roundShift mantissa shift sticky = mantissa / 2 ^ shift ∨
      roundShift mantissa shift sticky = mantissa / 2 ^ shift + 1 ∧
        2 ^ (shift - 1) ≤ mantissa % 2 ^ shift := by
  unfold roundShift
  simp only
  split_ifs with up
  · exact Or.inr ⟨rfl, up.elim le_of_lt fun tie => tie.1.ge⟩
  · exact Or.inl rfl

/-- The bits of `mantissa * 2 ^ exponent` from a place on. -/
def keptBits (mantissa : Nat) (exponent place : Int) (sticky : Bool) : Nat :=
  if place ≤ exponent then mantissa * 2 ^ (exponent - place).toNat
  else roundShift mantissa (place - exponent).toNat sticky

/-- The last place that is kept of a number of normal size. -/
def lastPlace (format : Format) (mantissa : Nat) (exponent : Int) : Int :=
  exponent + (Nat.log2 mantissa : Int) + 1 - format.precision

theorem keptBits_bounds (roomy : format.Roomy) {mantissa : Nat} (nonzero : mantissa ≠ 0)
    (exponent : Int) (sticky : Bool) :
    2 ^ (format.precision - 1) ≤
        keptBits mantissa exponent (lastPlace format mantissa exponent) sticky ∧
      keptBits mantissa exponent (lastPlace format mantissa exponent) sticky ≤
        2 ^ format.precision := by
  have precise := roomy.precise
  have low : 2 ^ mantissa.log2 ≤ mantissa := Nat.log2_self_le nonzero
  have high : mantissa < 2 ^ (mantissa.log2 + 1) := Nat.lt_log2_self
  unfold keptBits
  split_ifs with exact
  · have fits : mantissa.log2 ≤ format.precision - 1 := by
      unfold lastPlace at exact
      omega
    have shift : (exponent - lastPlace format mantissa exponent).toNat =
        format.precision - 1 - mantissa.log2 := by
      unfold lastPlace
      omega
    have bounds := normalized_bounds nonzero fits
    rw [Nat.sub_add_cancel (Nat.le_of_succ_le precise)] at bounds
    rw [shift]
    exact ⟨bounds.1, bounds.2.le⟩
  · have shift : (lastPlace format mantissa exponent - exponent).toNat =
        mantissa.log2 + 1 - format.precision := by
      unfold lastPlace
      omega
    have long : format.precision ≤ mantissa.log2 := by
      unfold lastPlace at exact
      omega
    rw [shift]
    generalize isShift : mantissa.log2 + 1 - format.precision = dropped
    have lowest : 2 ^ (format.precision - 1) ≤ mantissa / 2 ^ dropped := by
      rw [Nat.le_div_iff_mul_le (Nat.two_pow_pos _), ← pow_add]
      calc 2 ^ (format.precision - 1 + dropped) = 2 ^ mantissa.log2 := by
            congr 1
            omega
        _ ≤ mantissa := low
    have highest : mantissa / 2 ^ dropped < 2 ^ format.precision := by
      rw [Nat.div_lt_iff_lt_mul (Nat.two_pow_pos _), ← pow_add]
      calc mantissa < 2 ^ (mantissa.log2 + 1) := high
        _ = 2 ^ (format.precision + dropped) := by
            congr 1
            omega
    obtain isDown | ⟨isUp, -⟩ := roundShift_cases mantissa dropped sticky
    · rw [isDown]
      exact ⟨lowest, highest.le⟩
    · rw [isUp]
      exact ⟨lowest.trans (Nat.le_succ _), highest⟩

theorem decode_round (roomy : format.Roomy) {mantissa : Nat} (nonzero : mantissa ≠ 0)
    {exponent : Int} (low : format.minExponent ≤ lastPlace format mantissa exponent)
    (high : lastPlace format mantissa exponent ≤ 0) (negative sticky : Bool) :
    let place := lastPlace format mantissa exponent
    let kept := keptBits mantissa exponent place sticky
    decode format (round format negative mantissa exponent sticky) =
        .finite negative kept place ∧ kept < 2 ^ format.precision ∨
      decode format (round format negative mantissa exponent sticky) =
        .finite negative (2 ^ (format.precision - 1)) (place + 1) ∧
          kept = 2 * 2 ^ (format.precision - 1) := by
  intro place kept
  have bounds : 2 ^ (format.precision - 1) ≤ kept ∧ kept ≤ 2 ^ format.precision :=
    keptBits_bounds roomy nonzero exponent sticky
  have twice := roomy.two_pow_precision
  have bits := roomy.two_pow_exponentBits
  have wide := roomy.wide
  have isPlace : max (exponent + (mantissa.log2 : Int) + 1 - format.precision)
      format.minExponent = place := max_eq_left low
  generalize isField : (place - format.minExponent).toNat + 1 = field
  have isExponent : format.minExponent + (field : Int) - 1 = place := by omega
  have below : field + 1 < format.topField := by
    unfold Format.topField
    unfold Format.minExponent at isExponent
    have half : (2 : Int) ^ (format.exponentBits - 1) = (2 ^ (format.exponentBits - 1) : Nat) := by
      push_cast
      rfl
    rw [half] at isExponent
    omega
  have notBelow : ¬ kept < 2 ^ (format.precision - 1) := Nat.not_lt.mpr bounds.1
  have fitting : field * 2 ^ (format.precision - 1) + (kept - 2 ^ (format.precision - 1)) <
      format.topField * 2 ^ (format.precision - 1) := by
    calc field * 2 ^ (format.precision - 1) + (kept - 2 ^ (format.precision - 1))
        ≤ field * 2 ^ (format.precision - 1) + 2 ^ (format.precision - 1) := by
          apply Nat.add_le_add_left
          have upper := bounds.2
          rw [twice] at upper
          omega
      _ = (field + 1) * 2 ^ (format.precision - 1) := (Nat.succ_mul _ _).symm
      _ < format.topField * 2 ^ (format.precision - 1) :=
          Nat.mul_lt_mul_of_pos_right below (Nat.two_pow_pos _)
  have isRounded : round format negative mantissa exponent sticky =
      signBit format negative +
        (field * 2 ^ (format.precision - 1) + (kept - 2 ^ (format.precision - 1))) := by
    unfold round
    have isKept : (if place ≤ exponent then mantissa * 2 ^ (exponent - place).toNat
        else roundShift mantissa (place - exponent).toNat sticky) = kept := rfl
    simp only [nonzero, if_false, isPlace, isField, isKept, notBelow, Nat.not_le.mpr fitting]
  rw [isRounded]
  by_cases carry : kept < 2 ^ format.precision
  · left
    refine ⟨?_, carry⟩
    rw [decode_normal (by omega) (by omega) (by omega), isExponent,
      Nat.sub_add_cancel bounds.1]
  · right
    have full : kept = 2 * 2 ^ (format.precision - 1) :=
      Nat.le_antisymm (twice ▸ bounds.2) (twice ▸ Nat.not_lt.mp carry)
    refine ⟨?_, full⟩
    have next : field * 2 ^ (format.precision - 1) + (kept - 2 ^ (format.precision - 1)) =
        (field + 1) * 2 ^ (format.precision - 1) + 0 := by
      have spread : (field + 1) * 2 ^ (format.precision - 1) =
          field * 2 ^ (format.precision - 1) + 2 ^ (format.precision - 1) := Nat.succ_mul _ _
      omega
    rw [next, decode_normal (by omega) below (Nat.two_pow_pos _), Nat.zero_add]
    congr 1
    push_cast
    omega

theorem decode_ofInt (roomy : format.Roomy) {value : Int} (nonzero : value ≠ 0)
    (fits : value.natAbs < 2 ^ format.precision) :
    decode format (ofInt format value) =
      .finite (value < 0)
        (value.natAbs * 2 ^ (format.precision - 1 - value.natAbs.log2))
        ((value.natAbs.log2 : Int) - (format.precision - 1 : Nat)) := by
  have precise := roomy.precise
  have wide := roomy.wide
  have positive : value.natAbs ≠ 0 := Int.natAbs_ne_zero.mpr nonzero
  have short : value.natAbs.log2 < format.precision := (Nat.log2_lt positive).mpr fits
  have isPlace : lastPlace format value.natAbs 0 =
      (value.natAbs.log2 : Int) - (format.precision - 1 : Nat) := by
    unfold lastPlace
    omega
  have low : format.minExponent ≤ lastPlace format value.natAbs 0 := by
    have half : (2 : Int) ^ (format.exponentBits - 1) = (2 ^ (format.exponentBits - 1) : Nat) := by
      push_cast
      rfl
    unfold Format.minExponent
    rw [isPlace, half]
    omega
  have high : lastPlace format value.natAbs 0 ≤ 0 := by omega
  have isKept : keptBits value.natAbs 0 (lastPlace format value.natAbs 0) false =
      value.natAbs * 2 ^ (format.precision - 1 - value.natAbs.log2) := by
    unfold keptBits
    rw [if_pos high]
    congr 2
    omega
  have bounds := normalized_bounds positive (Nat.le_sub_one_of_lt short)
  rw [Nat.sub_add_cancel (Nat.le_of_succ_le precise)] at bounds
  unfold ofInt roundInt
  rw [if_neg nonzero]
  obtain ⟨isDatum, -⟩ | ⟨-, full⟩ := decode_round roomy positive low high (decide (value < 0)) false
  · rw [isDatum, isKept, isPlace]
  · rw [isKept, ← roomy.two_pow_precision] at full
    exact absurd full bounds.2.ne

/-- What a pattern can stand for. -/
theorem decode_cases (format : Format) (bits : Nat) :
    (decode format bits).isFinite = false ∨
      (∃ negative fraction, fraction < 2 ^ (format.precision - 1) ∧
        decode format bits = .finite negative fraction format.minExponent) ∨
      ∃ negative fraction exponent, fraction < 2 ^ (format.precision - 1) ∧
        decode format bits =
          .finite negative (fraction + 2 ^ (format.precision - 1)) exponent := by
  have small : bits % 2 ^ (format.precision - 1) < 2 ^ (format.precision - 1) :=
    Nat.mod_lt _ (Nat.two_pow_pos _)
  unfold decode
  simp only
  split_ifs
  · exact Or.inl rfl
  · exact Or.inl rfl
  · exact Or.inr (Or.inl ⟨_, _, small, rfl⟩)
  · exact Or.inr (Or.inr ⟨_, _, _, small, rfl⟩)

theorem decode_of_isWhole (roomy : format.Roomy) {bits : Nat}
    (whole : (decode format bits).isWhole = true) (nonzero : (decode format bits).truncInt ≠ 0)
    (fits : (decode format bits).truncInt.natAbs < 2 ^ format.precision) :
    decode format bits = decode format (ofInt format (decode format bits).truncInt) := by
  have wide := roomy.wide
  have precise := roomy.precise
  have twice := roomy.two_pow_precision
  obtain notFinite | ⟨negative, fraction, small, isDatum⟩ |
      ⟨negative, fraction, exponent, small, isDatum⟩ := decode_cases format bits
  · cases datum : decode format bits with
    | finite negative mantissa exponent =>
        rw [datum] at notFinite
        cases notFinite
    | nan =>
        rw [datum] at whole
        cases whole
    | infinite negative =>
        rw [datum] at whole
        cases whole
  · rw [isDatum] at nonzero
    obtain ⟨places, isPlaces⟩ : ∃ places : Nat, format.minExponent = -(places : Int) ∧
        format.precision - 1 ≤ places := by
      have half : (2 : Int) ^ (format.exponentBits - 1) =
          (2 ^ (format.exponentBits - 1) : Nat) := by
        push_cast
        rfl
      refine ⟨(-format.minExponent).toNat, ?_⟩
      unfold Format.minExponent
      rw [half]
      omega
    rw [isPlaces.1, Datum.truncInt_of_nonpos, Nat.div_eq_of_lt] at nonzero
    · cases negative <;> exact absurd rfl nonzero
    · exact Nat.lt_of_lt_of_le small (Nat.pow_le_pow_right (by decide) isPlaces.2)
  · rw [isDatum] at whole nonzero fits ⊢
    generalize isMantissa : fraction + 2 ^ (format.precision - 1) = mantissa at *
    have low : 2 ^ (format.precision - 1) ≤ mantissa := by omega
    have high : mantissa < 2 ^ format.precision := by omega
    obtain ⟨places, isExponent, value, isValue⟩ : ∃ places : Nat, exponent = -(places : Int) ∧
        ∃ value, mantissa = value * 2 ^ places := by
      by_cases isUp : 0 ≤ exponent
      · obtain ⟨places, rfl⟩ := Int.eq_ofNat_of_zero_le isUp
        cases places with
        | zero => exact ⟨0, rfl, mantissa, by simp⟩
        | succ places =>
            have large : 2 * mantissa ≤ mantissa * 2 ^ (places + 1) := by
              rw [Nat.mul_comm 2]
              apply Nat.mul_le_mul_left
              exact Nat.le_self_pow (Nat.succ_ne_zero _) 2
            rw [Datum.truncInt_of_nonneg, Datum.natAbs_signed] at fits
            omega
      · obtain ⟨places, rfl⟩ := Int.exists_eq_neg_ofNat (Int.not_le.mp isUp).le
        exact ⟨places, rfl, mantissa / 2 ^ places,
          (Nat.div_mul_cancel (Datum.dvd_of_isWhole whole)).symm⟩
    subst isExponent
    have isTrunc : (Datum.finite negative mantissa (-(places : Int))).truncInt =
        Datum.signed negative value := by
      rw [Datum.truncInt_of_nonpos, isValue, Nat.mul_div_cancel _ (Nat.two_pow_pos _)]
    have valuePositive : value ≠ 0 := by
      rintro rfl
      rw [isTrunc] at nonzero
      cases negative <;> exact absurd rfl nonzero
    have isLog : value.log2 + places = format.precision - 1 := by
      have length : mantissa.log2 = format.precision - 1 := by
        apply log2_eq_of_bounds low
        rw [Nat.sub_add_cancel (Nat.le_of_succ_le precise)]
        exact high
      have scaledLog : (value * 2 ^ places).log2 = value.log2 + places := by
        apply log2_eq_of_bounds
        · rw [pow_add]
          exact Nat.mul_le_mul_right _ (Nat.log2_self_le valuePositive)
        · rw [Nat.add_right_comm, pow_add]
          exact Nat.mul_lt_mul_of_pos_right Nat.lt_log2_self (Nat.two_pow_pos _)
      rw [← scaledLog, ← isValue, length]
    rw [isTrunc] at nonzero fits ⊢
    rw [decode_ofInt roomy nonzero fits, Datum.natAbs_signed,
      Datum.signed_lt_zero negative valuePositive, isValue]
    congr 1
    · congr 2
      omega
    · omega

/-- What is below a power of two in size stays so when it is truncated. -/
theorem natAbs_truncInt_lt {datum : Datum} {places : Nat}
    (below : (absDatum datum).lt (.finite false 1 (places : Int)) = true) :
    datum.truncInt.natAbs < 2 ^ places := by
  cases datum with
  | nan => exact Nat.two_pow_pos _
  | infinite negative => exact Nat.two_pow_pos _
  | finite negative mantissa exponent =>
      have gap : Datum.difference false mantissa exponent false 1 places < 0 := by
        by_contra notBelow
        simp only [absDatum, Datum.lt, Datum.compare, beq_iff_eq, Option.some.injEq] at below
        split_ifs at below
      have less : mantissa * 2 ^ (exponent - min exponent places).toNat <
          2 ^ ((places : Int) - min exponent places).toNat := by
        simp only [Datum.difference, Datum.scaled, Nat.one_mul, Bool.false_eq_true, if_false] at gap
        exact Int.ofNat_lt.mp (sub_neg.mp gap)
      obtain ⟨size, isUp | isDown⟩ := exponent.eq_nat_or_neg
      · subst isUp
        rw [Datum.truncInt_of_nonneg, Datum.natAbs_signed]
        obtain inside | outside := le_or_gt size places
        · have isMin : min (size : Int) places = size := min_eq_left (by omega)
          have isRest : ((places : Int) - size).toNat = places - size := by omega
          rw [isMin, sub_self, Int.toNat_zero, pow_zero, Nat.mul_one, isRest] at less
          calc mantissa * 2 ^ size < 2 ^ (places - size) * 2 ^ size :=
                Nat.mul_lt_mul_of_pos_right less (Nat.two_pow_pos _)
            _ = 2 ^ places := by rw [← pow_add, Nat.sub_add_cancel inside]
        · have isPlaces : min (size : Int) places = places := min_eq_right (by omega)
          rw [isPlaces, sub_self, Int.toNat_zero, pow_zero, Nat.lt_one_iff,
            Nat.mul_eq_zero] at less
          rw [less.resolve_right (Nat.two_pow_pos _).ne', Nat.zero_mul]
          exact Nat.two_pow_pos _
      · subst isDown
        rw [Datum.truncInt_of_nonpos, Datum.natAbs_signed]
        have isMin : min (-(size : Int)) places = -(size : Int) := min_eq_left (by omega)
        have isRest : ((places : Int) - -(size : Int)).toNat = places + size := by omega
        rw [isMin, sub_self, Int.toNat_zero, pow_zero, Nat.mul_one, isRest, pow_add] at less
        exact (Nat.div_lt_iff_lt_mul (Nat.two_pow_pos _)).mpr less

/-- A quotient rounded up past a place never arrives at the next whole number:
the gap below it is at least a part in the divisor. -/
theorem rounded_div (format : Format) {dividend divisor places shift : Nat} {sticky : Bool}
    (roomy : format.Roomy) (positive : 0 < divisor) (shifts : 0 < shift)
    (fits : dividend + divisor < 2 ^ format.precision)
    (normal : 2 ^ (format.precision - 1) ≤
      roundShift (dividend * 2 ^ (places + shift) / divisor) shift sticky) :
    roundShift (dividend * 2 ^ (places + shift) / divisor) shift sticky / 2 ^ places =
      dividend / divisor := by
  generalize isQuotient : dividend * 2 ^ (places + shift) / divisor = quotient at normal ⊢
  have isFloor : quotient / 2 ^ shift = dividend * 2 ^ places / divisor := by
    rw [← isQuotient, Nat.div_div_eq_div_mul, pow_add, ← Nat.mul_assoc,
      Nat.mul_div_mul_right _ _ (Nat.two_pow_pos shift)]
  generalize isWhole : dividend * 2 ^ places / divisor = whole at isFloor
  have floors : whole / 2 ^ places = dividend / divisor := by
    rw [← isWhole, Nat.div_div_eq_div_mul, Nat.mul_div_mul_right _ _ (Nat.two_pow_pos places)]
  obtain isDown | ⟨isUp, half⟩ := roundShift_cases quotient shift sticky
  · rw [isDown, isFloor, floors]
  · rw [isUp, isFloor] at normal ⊢
    rw [Nat.succ_div, floors, if_neg, Nat.add_zero]
    rintro ⟨next, reached⟩
    have upToDividend : quotient * divisor ≤ dividend * 2 ^ (places + shift) :=
      isQuotient ▸ Nat.div_mul_le_self _ _
    -- In units of half a kept place, the exact quotient lies beyond `2 * whole + 1`.
    have beyond : (2 * whole + 1) * divisor ≤ 2 * (dividend * 2 ^ places) := by
      have parts : 2 ^ shift * whole + quotient % 2 ^ shift = quotient :=
        isFloor ▸ Nat.div_add_mod quotient (2 ^ shift)
      have double : 2 ^ shift = 2 * 2 ^ (shift - 1) := by
        rw [← pow_succ', Nat.sub_add_cancel shifts]
      have low : 2 ^ (shift - 1) * (2 * whole + 1) ≤ quotient := by
        calc 2 ^ (shift - 1) * (2 * whole + 1) = 2 ^ shift * whole + 2 ^ (shift - 1) := by
              rw [double]
              ring
          _ ≤ quotient := by omega
      apply Nat.le_of_mul_le_mul_left _ (Nat.two_pow_pos (shift - 1))
      calc 2 ^ (shift - 1) * ((2 * whole + 1) * divisor)
          = 2 ^ (shift - 1) * (2 * whole + 1) * divisor := (Nat.mul_assoc _ _ _).symm
        _ ≤ quotient * divisor := Nat.mul_le_mul_right _ low
        _ ≤ dividend * 2 ^ (places + shift) := upToDividend
        _ = 2 ^ (shift - 1) * (2 * (dividend * 2 ^ places)) := by
            rw [pow_add, double]
            ring
    have notReached : dividend < next * divisor := by
      have below : dividend * 2 ^ places < (whole + 1) * divisor :=
        isWhole ▸ Nat.mul_comm divisor _ ▸ Nat.lt_mul_div_succ _ positive
      apply Nat.lt_of_mul_lt_mul_right (a := 2 ^ places)
      calc dividend * 2 ^ places < (whole + 1) * divisor := below
        _ = next * divisor * 2 ^ places := by
            rw [reached]
            ring
    have wideDivisor : 2 * 2 ^ places ≤ divisor := by
      have gap : (dividend + 1) * (2 * 2 ^ places) ≤ next * divisor * (2 * 2 ^ places) :=
        Nat.mul_le_mul_right _ notReached
      have same : (2 * whole + 1) * divisor + divisor = next * divisor * (2 * 2 ^ places) := by
        calc (2 * whole + 1) * divisor + divisor = 2 * (whole + 1) * divisor := by ring
          _ = next * divisor * (2 * 2 ^ places) := by
              rw [reached]
              ring
      have spread : (dividend + 1) * (2 * 2 ^ places) =
          2 * (dividend * 2 ^ places) + 2 * 2 ^ places := by ring
      omega
    have tooLong : 2 ^ format.precision * 2 ^ places < 2 ^ format.precision * 2 ^ places := by
      calc 2 ^ format.precision * 2 ^ places
          = 2 ^ (format.precision - 1) * (2 * 2 ^ places) := by
            rw [roomy.two_pow_precision]
            ring
        _ ≤ (whole + 1) * divisor := Nat.mul_le_mul normal wideDivisor
        _ = whole * divisor + divisor := Nat.succ_mul _ _
        _ ≤ dividend * 2 ^ places + divisor :=
            Nat.add_le_add_right (isWhole ▸ Nat.div_mul_le_self _ _) _
        _ ≤ dividend * 2 ^ places + divisor * 2 ^ places :=
            Nat.add_le_add_left (Nat.le_mul_of_pos_right _ (Nat.two_pow_pos _)) _
        _ = (dividend + divisor) * 2 ^ places := (Nat.add_mul _ _ _).symm
        _ < 2 ^ format.precision * 2 ^ places :=
            Nat.mul_lt_mul_of_pos_right fits (Nat.two_pow_pos _)
    exact absurd tooLong (lt_irrefl _)

theorem signed_tdiv (dividend divisor : Int) :
    Datum.signed (decide (dividend < 0) ^^ decide (divisor < 0))
      (dividend.natAbs / divisor.natAbs) = dividend.tdiv divisor := by
  unfold Datum.signed
  by_cases negative : dividend < 0
  · rw [decide_eq_true negative]
    obtain ⟨size, rfl⟩ := Int.exists_eq_neg_ofNat negative.le
    by_cases negative' : divisor < 0
    · rw [decide_eq_true negative']
      obtain ⟨size', rfl⟩ := Int.exists_eq_neg_ofNat negative'.le
      simp
    · rw [decide_eq_false negative']
      obtain ⟨size', rfl⟩ := Int.eq_ofNat_of_zero_le (Int.not_lt.mp negative')
      simp
  · rw [decide_eq_false negative]
    obtain ⟨size, rfl⟩ := Int.eq_ofNat_of_zero_le (Int.not_lt.mp negative)
    by_cases negative' : divisor < 0
    · rw [decide_eq_true negative']
      obtain ⟨size', rfl⟩ := Int.exists_eq_neg_ofNat negative'.le
      simp
    · rw [decide_eq_false negative']
      obtain ⟨size', rfl⟩ := Int.eq_ofNat_of_zero_le (Int.not_lt.mp negative')
      simp

/-- Data of full length are divided with two bits to spare. -/
theorem divDatum_normal (roomy : format.Roomy) {left right : Nat}
    (leftBounds : 2 ^ (format.precision - 1) ≤ left ∧ left < 2 ^ format.precision)
    (rightBounds : 2 ^ (format.precision - 1) ≤ right ∧ right < 2 ^ format.precision)
    (leftNegative rightNegative : Bool) (leftExponent rightExponent : Int) :
    divDatum format (.finite leftNegative left leftExponent)
        (.finite rightNegative right rightExponent) =
      round format (leftNegative ^^ rightNegative) (left * 2 ^ (format.precision + 2) / right)
        (leftExponent - rightExponent - (format.precision + 2 : Nat))
        (left * 2 ^ (format.precision + 2) % right ≠ 0) := by
  have next : format.precision - 1 + 1 = format.precision :=
    Nat.sub_add_cancel (Nat.le_of_succ_le roomy.precise)
  have leftLog : left.log2 = format.precision - 1 :=
    log2_eq_of_bounds leftBounds.1 (next.symm ▸ leftBounds.2)
  have rightLog : right.log2 = format.precision - 1 :=
    log2_eq_of_bounds rightBounds.1 (next.symm ▸ rightBounds.2)
  have nonzero : right ≠ 0 := (Nat.lt_of_lt_of_le (Nat.two_pow_pos _) rightBounds.1).ne'
  simp only [divDatum, if_neg nonzero, leftLog, rightLog, Nat.add_sub_cancel]

theorem quotient_bounds (roomy : format.Roomy) {left right : Nat}
    (leftBounds : 2 ^ (format.precision - 1) ≤ left ∧ left < 2 ^ format.precision)
    (rightBounds : 2 ^ (format.precision - 1) ≤ right ∧ right < 2 ^ format.precision) :
    2 ^ (format.precision + 1) ≤ left * 2 ^ (format.precision + 2) / right ∧
      left * 2 ^ (format.precision + 2) / right < 2 ^ (format.precision + 3) := by
  have positive : 0 < right := Nat.lt_of_lt_of_le (Nat.two_pow_pos _) rightBounds.1
  have twice := roomy.two_pow_precision
  constructor
  · rw [Nat.le_div_iff_mul_le positive]
    calc 2 ^ (format.precision + 1) * right
        ≤ 2 ^ (format.precision + 1) * 2 ^ format.precision :=
          Nat.mul_le_mul_left _ rightBounds.2.le
      _ = 2 ^ (format.precision - 1) * 2 ^ (format.precision + 2) := by
          rw [pow_succ, pow_add, twice]
          ring
      _ ≤ left * 2 ^ (format.precision + 2) := Nat.mul_le_mul_right _ leftBounds.1
  · rw [Nat.div_lt_iff_lt_mul positive]
    calc left * 2 ^ (format.precision + 2)
        < 2 ^ format.precision * 2 ^ (format.precision + 2) :=
          Nat.mul_lt_mul_of_pos_right leftBounds.2 (Nat.two_pow_pos _)
      _ = 2 ^ (format.precision + 3) * 2 ^ (format.precision - 1) := by
          rw [pow_add _ _ 2, pow_add _ _ 3, twice]
          ring
      _ ≤ 2 ^ (format.precision + 3) * right := Nat.mul_le_mul_left _ rightBounds.1

theorem truncInt_round (roomy : format.Roomy) {mantissa places : Nat} (nonzero : mantissa ≠ 0)
    {exponent : Int} (isPlace : lastPlace format mantissa exponent = -(places : Int))
    (low : (places : Int) ≤ -format.minExponent) (negative sticky : Bool) :
    (decode format (round format negative mantissa exponent sticky)).isFinite = true ∧
      (decode format (round format negative mantissa exponent sticky)).truncInt =
        Datum.signed negative (keptBits mantissa exponent (-(places : Int)) sticky / 2 ^ places) := by
  have rounded := @decode_round format roomy mantissa nonzero exponent (by omega) (by omega)
    negative sticky
  rw [isPlace] at rounded
  obtain ⟨isDatum, -⟩ | ⟨isDatum, full⟩ := rounded
  · rw [isDatum, Datum.truncInt_of_nonpos]
    exact ⟨rfl, rfl⟩
  · rw [isDatum, Datum.truncInt_double, full]
    exact ⟨rfl, rfl⟩

/-- Truncating the rounded quotient of two integers is dividing them, as long
as their sizes together fit the precision. -/
theorem truncInt_div (roomy : format.Roomy) {dividend divisor : Int} (nonzero : divisor ≠ 0)
    (fits : dividend.natAbs + divisor.natAbs < 2 ^ format.precision) :
    (decode format (div format (ofInt format dividend) (ofInt format divisor))).isFinite = true ∧
      (decode format (div format (ofInt format dividend) (ofInt format divisor))).truncInt =
        dividend.tdiv divisor := by
  have precise := roomy.precise
  have positive : divisor.natAbs ≠ 0 := Int.natAbs_ne_zero.mpr nonzero
  have short : divisor.natAbs.log2 < format.precision := (Nat.log2_lt positive).mpr (by omega)
  have divisorBounds := normalized_bounds positive (Nat.le_sub_one_of_lt short)
  have divisorDatum := decode_ofInt roomy nonzero (by omega)
  rw [div, divisorDatum]
  generalize isUp : format.precision - 1 - divisor.natAbs.log2 = up at divisorBounds
  generalize isRight : divisor.natAbs * 2 ^ up = right at divisorBounds
  have rightPositive : right ≠ 0 :=
    (Nat.lt_of_lt_of_le (Nat.two_pow_pos _) divisorBounds.1).ne'
  by_cases zero : dividend = 0
  · subst zero
    have isZero : decode format (ofInt format 0) = .finite false 0 format.minExponent :=
      decode_zero roomy false
    have isDatum : divDatum format (.finite false 0 format.minExponent)
        (.finite (decide (divisor < 0)) right
          ((divisor.natAbs.log2 : Int) - (format.precision - 1 : Nat))) =
        signBit format (decide (divisor < 0)) := by
      simp [divDatum, rightPositive, round]
    rw [isZero, isDatum, decode_zero roomy]
    refine ⟨rfl, ?_⟩
    simp [Datum.truncInt]
  · have dividendPositive : dividend.natAbs ≠ 0 := Int.natAbs_ne_zero.mpr zero
    have dividendShort : dividend.natAbs.log2 < format.precision :=
      (Nat.log2_lt dividendPositive).mpr (by omega)
    have dividendBounds := normalized_bounds dividendPositive (Nat.le_sub_one_of_lt dividendShort)
    rw [Nat.sub_add_cancel (Nat.le_of_succ_le precise)] at divisorBounds dividendBounds
    rw [decode_ofInt roomy zero (by omega), divDatum_normal roomy dividendBounds divisorBounds,
      ← isRight]
    -- The quotient that is rounded, in terms of the integers themselves.
    have isQuotient : dividend.natAbs * 2 ^ (format.precision - 1 - dividend.natAbs.log2) *
        2 ^ (format.precision + 2) / (divisor.natAbs * 2 ^ up) =
        dividend.natAbs *
          2 ^ (format.precision + 2 + divisor.natAbs.log2 - dividend.natAbs.log2) /
          divisor.natAbs := by
      have powers : 2 ^ (format.precision - 1 - dividend.natAbs.log2) *
          2 ^ (format.precision + 2) =
          2 ^ (format.precision + 2 + divisor.natAbs.log2 - dividend.natAbs.log2) * 2 ^ up := by
        rw [← pow_add, ← pow_add]
        congr 1
        omega
      rw [Nat.mul_assoc, powers, ← Nat.mul_assoc, Nat.mul_div_mul_right _ _ (Nat.two_pow_pos up)]
    have quotientBounds := quotient_bounds roomy dividendBounds (isRight ▸ divisorBounds)
    rw [isQuotient] at quotientBounds ⊢
    generalize isLeft : dividend.natAbs * 2 ^ (format.precision - 1 - dividend.natAbs.log2) = left
    generalize decide (left * 2 ^ (format.precision + 2) % (divisor.natAbs * 2 ^ up) ≠ 0) = sticky
    generalize isWhole : dividend.natAbs *
      2 ^ (format.precision + 2 + divisor.natAbs.log2 - dividend.natAbs.log2) /
        divisor.natAbs = quotient at quotientBounds ⊢
    have quotientPositive : quotient ≠ 0 :=
      (Nat.lt_of_lt_of_le (Nat.two_pow_pos _) quotientBounds.1).ne'
    have long : format.precision + 1 ≤ quotient.log2 :=
      (Nat.le_log2 quotientPositive).mpr quotientBounds.1
    have notLonger : quotient.log2 < format.precision + 3 :=
      (Nat.log2_lt quotientPositive).mpr quotientBounds.2
    obtain ⟨shift, isShift⟩ : ∃ shift, quotient.log2 + 1 = format.precision + shift :=
      ⟨quotient.log2 + 1 - format.precision, by omega⟩
    obtain ⟨places, isPlaces⟩ : ∃ places,
        format.precision + 2 + divisor.natAbs.log2 - dividend.natAbs.log2 = places + shift :=
      ⟨format.precision + 2 + divisor.natAbs.log2 - dividend.natAbs.log2 - shift, by omega⟩
    have isExponent : (dividend.natAbs.log2 : Int) - (format.precision - 1 : Nat) -
        ((divisor.natAbs.log2 : Int) - (format.precision - 1 : Nat)) -
        (format.precision + 2 : Nat) = -((places + shift : Nat) : Int) := by omega
    have isPlace : lastPlace format quotient (-((places + shift : Nat) : Int)) =
        -(places : Int) := by
      unfold lastPlace
      omega
    have low : (places : Int) ≤ -format.minExponent := by
      have half : (2 : Int) ^ (format.exponentBits - 1) =
          (2 ^ (format.exponentBits - 1) : Nat) := by
        push_cast
        rfl
      have wide := roomy.wide
      unfold Format.minExponent
      rw [half]
      omega
    have isKept : keptBits quotient (-((places + shift : Nat) : Int)) (-(places : Int)) sticky =
        roundShift quotient shift sticky := by
      unfold keptBits
      rw [if_neg (by omega)]
      congr 1
      omega
    have normal := (keptBits_bounds roomy quotientPositive (-((places + shift : Nat) : Int))
      sticky).1
    rw [isPlace, isKept, ← isWhole, isPlaces] at normal
    have rounded := truncInt_round roomy quotientPositive isPlace low
      (decide (dividend < 0) ^^ decide (divisor < 0)) sticky
    rw [isKept, ← isWhole, isPlaces, rounded_div format roomy (Nat.pos_of_ne_zero positive)
      (by omega) fits normal, signed_tdiv] at rounded
    rw [isExponent, ← isWhole, isPlaces]
    exact rounded

end Binary

end Rayzor.Library
