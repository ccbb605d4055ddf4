import Rayzor.Quant.Blocks

/-!
Contract: the kernels against dequantisation, in exact arithmetic.
-/

namespace Rayzor.Quant

open Library (checked)
open Library.Checked (accumulate accumulate_eq_some checked_eq_some)

/-! ### Indices -/

theorem low_lt_8 (j : Fin 4) : j.val < 8 := by omega

theorem low_lt_12 (j : Fin 4) : j.val < 12 := by omega

theorem high_lt_8 (j : Fin 4) : j.val + 4 < 8 := by omega

theorem high_lt_12 (j : Fin 4) : j.val + 4 < 12 := by omega

theorem both_lt_12 (j : Fin 4) : j.val + 8 < 12 := by omega

theorem half_lt_4 (s : Fin 8) : s.val / 2 < 4 := by omega

theorem even_lt_16 (s : Fin 8) : 2 * s.val < 16 := by omega

theorem odd_lt_16 (s : Fin 8) : 2 * s.val + 1 < 16 := by omega

theorem pair_lt_16 (k : Fin 4) (half : Fin 2) : 4 * k.val + 2 * half.val < 16 := by omega

theorem pair_succ_lt_16 (k : Fin 4) (half : Fin 2) : 4 * k.val + 2 * half.val + 1 < 16 := by omega

/-! ### The header -/

theorem byte_ext {a b : UInt8}
    (bits : ∀ i : Fin 8, a.toBitVec.getLsbD i = b.toBitVec.getLsbD i) : a = b := by
  rw [← UInt8.toBitVec_inj]
  exact BitVec.eq_of_getLsbD_eq fun i below => bits ⟨i, below⟩

/-- Six bits of a byte, with two other bits on top of them. -/
theorem low_of_packed (a c : UInt8) :
    ((a &&& (63 : UInt8)) ||| (c <<< (6 : UInt8))) &&& (63 : UInt8) = a &&& (63 : UInt8) := by
  apply byte_ext
  intro i
  fin_cases i <;> simp

/-- The two bits on top of six others. -/
theorem high_of_packed (a b : UInt8) :
    ((((a &&& (63 : UInt8)) ||| (((b >>> (4 : UInt8)) &&& (3 : UInt8)) <<< (6 : UInt8))) >>>
      (6 : UInt8)) <<< (4 : UInt8)) = b &&& (48 : UInt8) := by
  apply byte_ext
  intro i
  fin_cases i <;> simp

theorem low_nibble (a b : UInt8) :
    ((a &&& (0x0F : UInt8)) ||| ((b &&& (0x0F : UInt8)) <<< (4 : UInt8))) &&& (0x0F : UInt8) =
      a &&& (0x0F : UInt8) := by
  apply byte_ext
  intro i
  fin_cases i <;> simp

theorem high_nibble (a b : UInt8) :
    ((a &&& (0x0F : UInt8)) ||| ((b &&& (0x0F : UInt8)) <<< (4 : UInt8))) >>> (4 : UInt8) =
      b &&& (0x0F : UInt8) := by
  apply byte_ext
  intro i
  fin_cases i <;> simp

theorem halves (a : UInt8) :
    (a &&& (0x0F : UInt8)) ||| (a &&& (48 : UInt8)) = a &&& (63 : UInt8) := by
  apply byte_ext
  intro i
  fin_cases i <;> simp

/-- A byte of six bits. -/
theorem and_63 {a : UInt8} (six : a < 64) : a &&& (63 : UInt8) = a := by
  have small : a.toNat < 64 := UInt8.lt_iff_toNat_lt.mp six
  rw [← UInt8.toNat_inj, UInt8.toNat_and]
  show a.toNat &&& (2 ^ 6 - 1) = a.toNat
  rw [Nat.and_two_pow_sub_one_eq_mod, Nat.mod_eq_of_lt small]

section Header

variable (sc6 mn6 : Fin 8 → UInt8) (j : Fin 4)

theorem packed_scale : packQ4KScales sc6 mn6 ⟨j, low_lt_12 j⟩ =
    (sc6 ⟨j, low_lt_8 j⟩ &&& (63 : UInt8)) |||
      (((sc6 ⟨j + 4, high_lt_8 j⟩ >>> (4 : UInt8)) &&& (3 : UInt8)) <<< (6 : UInt8)) := by
  fin_cases j <;> rfl

theorem packed_min : packQ4KScales sc6 mn6 ⟨j + 4, high_lt_12 j⟩ =
    (mn6 ⟨j, low_lt_8 j⟩ &&& (63 : UInt8)) |||
      (((mn6 ⟨j + 4, high_lt_8 j⟩ >>> (4 : UInt8)) &&& (3 : UInt8)) <<< (6 : UInt8)) := by
  fin_cases j <;> rfl

theorem packed_halves : packQ4KScales sc6 mn6 ⟨j + 8, both_lt_12 j⟩ =
    (sc6 ⟨j + 4, high_lt_8 j⟩ &&& (0x0F : UInt8)) |||
      ((mn6 ⟨j + 4, high_lt_8 j⟩ &&& (0x0F : UInt8)) <<< (4 : UInt8)) := by
  fin_cases j <;> rfl

end Header

theorem getScaleMin_low (sc6 mn6 : Fin 8 → UInt8) (j : Fin 4) :
    q4KGetScaleMin ⟨j, low_lt_8 j⟩ (packQ4KScales sc6 mn6) =
      (sc6 ⟨j, low_lt_8 j⟩ &&& (63 : UInt8), mn6 ⟨j, low_lt_8 j⟩ &&& (63 : UInt8)) := by
  unfold q4KGetScaleMin
  rw [dif_pos j.isLt, packed_scale, packed_min, low_of_packed, low_of_packed]

theorem getScaleMin_high (sc6 mn6 : Fin 8 → UInt8) (j : Fin 4) :
    q4KGetScaleMin ⟨j + 4, high_lt_8 j⟩ (packQ4KScales sc6 mn6) =
      (sc6 ⟨j + 4, high_lt_8 j⟩ &&& (63 : UInt8), mn6 ⟨j + 4, high_lt_8 j⟩ &&& (63 : UInt8)) := by
  have front : (⟨j.val + 4 - 4, by omega⟩ : Fin 12) = ⟨j, by omega⟩ :=
    Fin.ext (Nat.add_sub_cancel _ _)
  unfold q4KGetScaleMin
  rw [dif_neg (by simp)]
  simp only [front]
  rw [packed_scale, packed_min]
  show ((packQ4KScales sc6 mn6 ⟨j + 8, _⟩ &&& (0x0F : UInt8)) ||| _,
    (packQ4KScales sc6 mn6 ⟨j + 8, _⟩ >>> (4 : UInt8)) ||| _) = _
  rw [packed_halves, high_of_packed, high_of_packed, low_nibble, high_nibble, halves, halves]

/-- A packed header gives back the low six bits of every pair. -/
theorem getScaleMin_packed (sc6 mn6 : Fin 8 → UInt8) (j : Fin 8) :
    q4KGetScaleMin j (packQ4KScales sc6 mn6) =
      (sc6 j &&& (63 : UInt8), mn6 j &&& (63 : UInt8)) := by
  rcases Nat.lt_or_ge j.val 4 with low | high
  · exact getScaleMin_low sc6 mn6 ⟨j, low⟩
  · have split : j = ⟨j - 4 + 4, by omega⟩ := Fin.ext (Nat.sub_add_cancel high).symm
    rw [split]
    exact getScaleMin_high sc6 mn6 ⟨j - 4, by omega⟩

theorem getScaleMin_le (j : Fin 8) (header : Fin 12 → UInt8) :
    (q4KGetScaleMin j header).1.toNat ≤ 63 ∧ (q4KGetScaleMin j header).2.toNat ≤ 63 := by
  have six : ∀ a : UInt8, (a &&& (63 : UInt8)).toNat ≤ 63 := by
    intro a
    rw [UInt8.toNat_and]
    exact Nat.and_le_right
  have four : ∀ a b : UInt8, ((a &&& (0x0F : UInt8)) ||| ((b >>> (6 : UInt8)) <<< (4 : UInt8))) =
      ((a &&& (0x0F : UInt8)) ||| ((b >>> (6 : UInt8)) <<< (4 : UInt8))) &&& (63 : UInt8) := by
    intro a b
    apply byte_ext
    intro i
    fin_cases i <;> simp
  have four' : ∀ a b : UInt8, ((a >>> (4 : UInt8)) ||| ((b >>> (6 : UInt8)) <<< (4 : UInt8))) =
      ((a >>> (4 : UInt8)) ||| ((b >>> (6 : UInt8)) <<< (4 : UInt8))) &&& (63 : UInt8) := by
    intro a b
    apply byte_ext
    intro i
    fin_cases i <;> simp
  unfold q4KGetScaleMin
  split
  · exact ⟨six _, six _⟩
  · constructor
    · rw [four]
      exact six _
    · rw [four']
      exact six _

/-! ### Dequantised weights -/

theorem foldl_keeps {σ α : Type} {f : σ → α → σ} (P : σ → Prop)
    (kept : ∀ state index, P state → P (f state index)) (list : List α) :
    ∀ start : σ, P start → P (list.foldl f start) := by
  induction list with
  | nil => exact fun _ holds => holds
  | cons index list ih =>
      exact fun start holds => ih _ (kept start index holds)

/-- What holds behind one step of a fold and is kept by every step holds at its end. -/
theorem foldl_reaches {σ α : Type} {f : σ → α → σ} (P : σ → Prop) {list : List α} {index : α}
    (isIndex : index ∈ list) (made : ∀ state, P (f state index))
    (kept : ∀ state other, P state → P (f state other)) (start : σ) : P (list.foldl f start) := by
  obtain ⟨front, back, rfl⟩ := List.append_of_mem isIndex
  rw [List.foldl_append, List.foldl_cons]
  exact foldl_keeps P kept back _ (made _)

def quant (qs : Fin 128 → UInt8) (s : Fin 8) (i : Fin 32) : UInt8 :=
  nibble (s.val % 2 = 1) (qs (byteAt ⟨s / 2, half_lt_4 s⟩ i))

def Q4KBlock.weight (block : Q4KBlock) (s : Fin 8) (i : Fin 32) : ℚ :=
  block.scales s * ((quant block.quants s i).toNat : ℚ) - block.mins s

theorem element_inj {s s' : Fin 8} {i i' : Fin 32} (same : element s i = element s' i') :
    s = s' ∧ i = i' := by
  have values := congrArg Fin.val same
  simp only [element] at values
  omega

theorem quant_lowBlock (qs : Fin 128 → UInt8) (p : Fin 4) (i : Fin 32) :
    quant qs (lowBlock p) i = qs (byteAt p i) &&& (0x0F : UInt8) := by
  fin_cases p <;> rfl

theorem quant_highBlock (qs : Fin 128 → UInt8) (p : Fin 4) (i : Fin 32) :
    quant qs (highBlock p) i = qs (byteAt p i) >>> (4 : UInt8) := by
  fin_cases p <;> rfl

theorem dequantByte_apply (block : Q4KBlock) (p : Fin 4) (out : Fin 256 → ℚ) (i : Fin 32)
    (s : Fin 8) (j : Fin 32) : dequantByte block p out i (element s j) =
      if j = i ∧ (s = lowBlock p ∨ s = highBlock p) then block.weight s j
      else out (element s j) := by
  unfold dequantByte
  by_cases isHigh : s = highBlock p ∧ j = i
  · obtain ⟨rfl, rfl⟩ := isHigh
    rw [Function.update_self, if_pos ⟨rfl, Or.inr rfl⟩, Q4KBlock.weight, quant_highBlock]
  · rw [Function.update_of_ne fun same => isHigh (element_inj same)]
    by_cases isLow : s = lowBlock p ∧ j = i
    · obtain ⟨rfl, rfl⟩ := isLow
      rw [Function.update_self, if_pos ⟨rfl, Or.inl rfl⟩, Q4KBlock.weight, quant_lowBlock]
    · rw [Function.update_of_ne fun same => isLow (element_inj same), if_neg]
      rintro ⟨rfl, rfl | rfl⟩
      · exact isLow ⟨rfl, rfl⟩
      · exact isHigh ⟨rfl, rfl⟩

theorem low_or_high (s : Fin 8) : ∃ p, s = lowBlock p ∨ s = highBlock p := by
  fin_cases s
  · exact ⟨0, Or.inl rfl⟩
  · exact ⟨0, Or.inr rfl⟩
  · exact ⟨1, Or.inl rfl⟩
  · exact ⟨1, Or.inr rfl⟩
  · exact ⟨2, Or.inl rfl⟩
  · exact ⟨2, Or.inr rfl⟩
  · exact ⟨3, Or.inl rfl⟩
  · exact ⟨3, Or.inr rfl⟩

theorem dequant_element (block : Q4KBlock) (out : Fin 256 → ℚ) (s : Fin 8) (i : Fin 32) :
    dequantQ4KBlock block out (element s i) = block.weight s i := by
  obtain ⟨p, isBlock⟩ := low_or_high s
  have kept : ∀ (p : Fin 4) (out : Fin 256 → ℚ) (j : Fin 32),
      out (element s i) = block.weight s i →
        dequantByte block p out j (element s i) = block.weight s i := by
    intro p out j holds
    rw [dequantByte_apply]
    split_ifs
    · rfl
    · exact holds
  unfold dequantQ4KBlock
  apply foldl_reaches (fun out : Fin 256 → ℚ => out (element s i) = block.weight s i)
    (List.mem_finRange p)
  · intro out
    apply foldl_reaches (fun out : Fin 256 → ℚ => out (element s i) = block.weight s i)
      (List.mem_finRange i)
    · intro out
      rw [dequantByte_apply, if_pos ⟨rfl, isBlock⟩]
    · exact fun out j => kept p out j
  · exact fun out p' => foldl_keeps (fun out : Fin 256 → ℚ => out (element s i) = block.weight s i)
      (kept p') _ out

/-- A sum over the elements of a block goes over those of its sub-blocks. -/
theorem sum_elements {M : Type} [AddCommMonoid M] (f : Fin 256 → M) :
    ∑ k, f k = ∑ s, ∑ i, f (element s i) := by
  rw [← Finset.sum_product', Finset.univ_product_univ]
  symm
  apply Fintype.sum_equiv (finProdFinEquiv : Fin 8 × Fin 32 ≃ Fin (8 * 32))
  rintro ⟨s, i⟩
  congr 1
  apply Fin.ext
  simp [element, finProdFinEquiv]
  omega

/-! ### Integers of the kernels -/

section Integers

variable (weight : Q4KMBlock) (x : Q8KBlock) (s : Fin 8)

def productOf (i : Fin 32) : Int :=
  ((quant weight.qs s i).toNat : Int) * (x.qs (element s i)).toInt

def dotOf : Int := ∑ i, productOf weight x s i

def bsumOf : Int := (x.bsums ⟨2 * s, even_lt_16 s⟩).toInt + (x.bsums ⟨2 * s + 1, odd_lt_16 s⟩).toInt

def scaleOf : Int := ((q4KGetScaleMin s weight.scales).1.toNat : Int)

def minOf : Int := ((q4KGetScaleMin s weight.scales).2.toNat : Int)

theorem nibble_le (isHi : Bool) (byte : UInt8) : (nibble isHi byte).toNat ≤ 15 := by
  unfold nibble
  split
  · rw [UInt8.toNat_shiftRight]
    have below := byte.toNat_lt
    show byte.toNat >>> 4 ≤ 15
    rw [Nat.shiftRight_eq_div_pow]
    omega
  · rw [UInt8.toNat_and]
    exact Nat.and_le_right

theorem abs_int8 (value : Int8) : |value.toInt| ≤ 128 := by
  have below := value.toInt_lt
  have above := value.le_toInt
  rw [abs_le]
  omega

theorem abs_mul_le {a b : Int} {m n : Int} (smallA : |a| ≤ m) (smallB : |b| ≤ n) :
    |a * b| ≤ m * n := by
  rw [abs_mul]
  exact mul_le_mul smallA smallB (abs_nonneg b) ((abs_nonneg a).trans smallA)

theorem abs_natCast_le {n m : Nat} (small : n ≤ m) : |(n : Int)| ≤ m := by
  rw [Nat.abs_cast]
  exact Int.ofNat_le.mpr small

theorem abs_productOf (i : Fin 32) : |productOf weight x s i| ≤ (1920 : Nat) :=
  abs_mul_le (abs_natCast_le (nibble_le _ _)) (abs_int8 _)

theorem abs_bsumOf : |bsumOf x s| ≤ 65536 := by
  have below := (x.bsums ⟨2 * s, even_lt_16 s⟩).toInt_lt
  have above := (x.bsums ⟨2 * s, even_lt_16 s⟩).le_toInt
  have below' := (x.bsums ⟨2 * s + 1, odd_lt_16 s⟩).toInt_lt
  have above' := (x.bsums ⟨2 * s + 1, odd_lt_16 s⟩).le_toInt
  unfold bsumOf
  rw [abs_le]
  omega

theorem abs_scaleOf : |scaleOf weight s| ≤ 63 :=
  abs_natCast_le (getScaleMin_le s weight.scales).1

theorem abs_minOf : |minOf weight s| ≤ 63 :=
  abs_natCast_le (getScaleMin_le s weight.scales).2

theorem product_eq (i : Fin 32) : product weight x s i = some (productOf weight x s i) :=
  checked_eq_some (abs_productOf weight x s i) (by decide)

theorem blockSum_eq : blockSum x s = some (bsumOf x s) :=
  checked_eq_some (abs_bsumOf x s) (by decide)

theorem minTerm_eq : minTerm weight x s = some (bsumOf x s * minOf weight s) := by
  unfold minTerm
  rw [blockSum_eq, Option.bind_some]
  exact checked_eq_some (abs_mul_le (abs_bsumOf x s) (abs_minOf weight s)) (by decide)

end Integers

/-! ### The scalar kernel -/

section Scalar

variable (weight : Q4KMBlock) (x : Q8KBlock)

def subBlockOf (s : Fin 8) : ℚ :=
  weight.d * (scaleOf weight s : ℚ) * (dotOf weight x s : ℚ) -
    weight.dmin * (minOf weight s : ℚ) * (bsumOf x s : ℚ)

theorem subBlock_eq (s : Fin 8) : subBlock weight x s = some (subBlockOf weight x s) := by
  have sum : accumulate 32 (product weight x s) (List.finRange 32) 0 =
      some (dotOf weight x s) := by
    have fits : |(0 : Int)| + ((List.finRange 32).length * 1920 : Nat) < 2 ^ (32 - 1) := by
      rw [List.length_finRange]
      decide
    rw [accumulate_eq_some (fun i _ => product_eq weight x s i)
      (fun i _ => abs_productOf weight x s i) fits, zero_add, dotOf, Fin.sum_univ_def]
  unfold subBlock
  simp only [sum, blockSum_eq, Option.bind_some, Option.map_some]
  simp only [subBlockOf, scaleOf, minOf, Int.cast_natCast]

theorem foldlM_add_eq_some {α : Type} {term : α → Option ℚ} {value : α → ℚ}
    (terms : ∀ index, term index = some (value index)) (list : List α) : ∀ start : ℚ,
      list.foldlM (fun acc index => (term index).map (acc + ·)) start =
        some (start + (list.map value).sum) := by
  induction list with
  | nil => exact fun start => by rw [List.map_nil, List.sum_nil, add_zero]; rfl
  | cons index list ih =>
      intro start
      rw [List.foldlM_cons, terms, Option.map_some]
      exact (ih _).trans (by rw [List.map_cons, List.sum_cons, add_assoc])

theorem vecDotScalar_eq :
    vecDotQ4KQ8KScalar weight x = some (x.d * ∑ s, subBlockOf weight x s) := by
  unfold vecDotQ4KQ8KScalar
  rw [foldlM_add_eq_some (subBlock_eq weight x), Option.map_some, zero_add, Fin.sum_univ_def]

end Scalar

/-! ### Lanes -/

section Lanes

theorem lanes_eq {lane : Fin 4 → Option Int} {value : Fin 4 → Int}
    (each : ∀ k, lane k = some (value k)) : lanes lane = some value := by
  unfold lanes
  rw [each, each, each, each]
  apply congrArg some
  funext k
  fin_cases k <;> rfl

def Lanes (result : Option (Fin 4 → Int)) (bound total : Int) : Prop :=
  ∃ v, result = some v ∧ (∀ k, |v k| ≤ bound) ∧ ∑ k, v k = total

theorem Lanes.bind {result : Option (Fin 4 → Int)} {bound total bound' total' : Int}
    {next : (Fin 4 → Int) → Option (Fin 4 → Int)} (isLanes : Lanes result bound total)
    (then_ : ∀ v, (∀ k, |v k| ≤ bound) → ∑ k, v k = total → Lanes (next v) bound' total') :
    Lanes (result.bind next) bound' total' := by
  obtain ⟨v, rfl, small, sum⟩ := isLanes
  exact then_ v small sum

theorem lanes_add {a b : Fin 4 → Int} {m n : Int} (smallA : ∀ k, |a k| ≤ m)
    (smallB : ∀ k, |b k| ≤ n) (fits : m + n < 2 ^ 31) :
    Lanes (i32x4Add a b) (m + n) (∑ k, a k + ∑ k, b k) := by
  have small : ∀ k, |a k + b k| ≤ m + n :=
    fun k => (abs_add_le _ _).trans (add_le_add (smallA k) (smallB k))
  refine ⟨fun k => a k + b k, ?_, small, Finset.sum_add_distrib⟩
  exact lanes_eq fun k => checked_eq_some (small k) fits

theorem lanes_mul {a : Fin 4 → Int} {c m n : Int} (smallA : ∀ k, |a k| ≤ m) (smallC : |c| ≤ n)
    (fits : m * n < 2 ^ 31) : Lanes (i32x4Mul a fun _ => c) (m * n) ((∑ k, a k) * c) := by
  have small : ∀ k, |a k * c| ≤ m * n := fun k => abs_mul_le (smallA k) smallC
  refine ⟨fun k => a k * c, ?_, small, (Finset.sum_mul _ _ _).symm⟩
  exact lanes_eq fun k => checked_eq_some (small k) fits

theorem hsum_eq {v : Fin 4 → Int} {bound : Int} (small : ∀ k, |v k| ≤ bound)
    (fits : 4 * bound < 2 ^ 31) : hsum v = some (∑ k, v k) := by
  have two : |v 0 + v 1| ≤ 2 * bound :=
    (abs_add_le _ _).trans (by linarith [small 0, small 1])
  have three : |v 0 + v 1 + v 2| ≤ 3 * bound :=
    (abs_add_le _ _).trans (by linarith [small 2])
  have four : |v 0 + v 1 + v 2 + v 3| ≤ 4 * bound :=
    (abs_add_le _ _).trans (by linarith [small 3])
  have positive : 0 ≤ bound := (abs_nonneg _).trans (small 0)
  unfold hsum
  rw [checked_eq_some two (by omega), Option.bind_some, checked_eq_some three (by omega),
    Option.bind_some, checked_eq_some four fits, Fin.sum_univ_four]

end Lanes

/-! ### Dots in lanes -/

section Dots

theorem sum_halves {M : Type} [AddCommMonoid M] {n : Nat} (f : Fin (n + n) → M) :
    ∑ i, f i = ∑ i : Fin n, f ⟨i, by omega⟩ + ∑ i : Fin n, f ⟨n + i, by omega⟩ :=
  Fin.sum_univ_add f

/-- Sixteen bytes that are nibbles. -/
def Nibbles (w : Fin 16 → Int8) : Prop := ∀ i, |(w i).toInt| ≤ 15

variable {w xs : Fin 16 → Int8}

theorem Nibbles.abs_mul (nibbles : Nibbles w) (i j : Fin 16) :
    |(w i).toInt * (xs j).toInt| ≤ 1920 :=
  abs_mul_le (nibbles i) (abs_int8 _)

theorem Nibbles.abs_pair (nibbles : Nibbles w) (i j : Fin 16) :
    |(w i).toInt * (xs i).toInt + (w j).toInt * (xs j).toInt| ≤ 3840 :=
  (abs_add_le _ _).trans (add_le_add (nibbles.abs_mul i i) (nibbles.abs_mul j j))

theorem lanes_dot {a b : Fin 8 → Int} (small : ∀ i j, |a i * b i + a j * b j| ≤ 3840) :
    Lanes (i32x4DotI16x8 a b) 3840 (∑ i, a i * b i) := by
  have each : ∀ k : Fin 4, |a ⟨2 * k, by omega⟩ * b ⟨2 * k, by omega⟩ +
      a ⟨2 * k + 1, by omega⟩ * b ⟨2 * k + 1, by omega⟩| ≤ 3840 := fun k => small _ _
  refine ⟨_, lanes_eq fun k => checked_eq_some (each k) (by decide), each, ?_⟩
  rw [Fin.sum_univ_four, Fin.sum_univ_eight]
  show a 0 * b 0 + a 1 * b 1 + (a 2 * b 2 + a 3 * b 3) + (a 4 * b 4 + a 5 * b 5) +
    (a 6 * b 6 + a 7 * b 7) = _
  ring

/-- Sixteen products in lanes, by way of halves of 16 bits. -/
theorem lanes_dot16 (nibbles : Nibbles w) :
    Lanes (dot16 w xs) 7680 (∑ i, (w i).toInt * (xs i).toInt) := by
  unfold dot16
  apply (lanes_dot (a := extendLow w) (b := extendLow xs)
    fun i j => nibbles.abs_pair ⟨i, by omega⟩ ⟨j, by omega⟩).bind
  intro low smallLow sumLow
  apply (lanes_dot (a := extendHigh w) (b := extendHigh xs)
    fun i j => nibbles.abs_pair ⟨i + 8, by omega⟩ ⟨j + 8, by omega⟩).bind
  intro high smallHigh sumHigh
  have added := lanes_add smallLow smallHigh (by decide)
  rw [sumLow, sumHigh] at added
  have halves := sum_halves (n := 8) fun i : Fin 16 => (w i).toInt * (xs i).toInt
  rw [halves]
  simp only [Nat.add_comm 8]
  exact added

theorem relaxedPair_eq (nibbles : Nibbles w) (k : Fin 4) (half : Fin 2) :
    relaxedPair xs w k half =
      some ((w ⟨4 * k + 2 * half, pair_lt_16 k half⟩).toInt * (xs ⟨4 * k + 2 * half, pair_lt_16 k half⟩).toInt +
        (w ⟨4 * k + 2 * half + 1, pair_succ_lt_16 k half⟩).toInt *
          (xs ⟨4 * k + 2 * half + 1, pair_succ_lt_16 k half⟩).toInt) := by
  have small : |(w ⟨4 * k + 2 * half, pair_lt_16 k half⟩).toInt *
      (xs ⟨4 * k + 2 * half, pair_lt_16 k half⟩).toInt + (w ⟨4 * k + 2 * half + 1, pair_succ_lt_16 k half⟩).toInt *
        (xs ⟨4 * k + 2 * half + 1, pair_succ_lt_16 k half⟩).toInt| ≤ 3840 := nibbles.abs_pair _ _
  unfold relaxedPair
  rw [mul_comm (xs _).toInt, mul_comm (xs _).toInt]
  exact checked_eq_some small (by decide)

/-- Sixteen products in lanes, added to others, by way of the relaxed instruction. -/
theorem lanes_relaxed (nibbles : Nibbles w) {acc : Fin 4 → Int} {bound : Int}
    (small : ∀ k, |acc k| ≤ bound) (fits : bound + 7680 < 2 ^ 31) :
    Lanes (relaxedDotAdd xs w acc) (bound + 7680)
      (∑ k, acc k + ∑ i, (w i).toInt * (xs i).toInt) := by
  let pair := fun (k : Fin 4) (half : Fin 2) =>
    (w ⟨4 * k + 2 * half, pair_lt_16 k half⟩).toInt * (xs ⟨4 * k + 2 * half, pair_lt_16 k half⟩).toInt +
      (w ⟨4 * k + 2 * half + 1, pair_succ_lt_16 k half⟩).toInt * (xs ⟨4 * k + 2 * half + 1, pair_succ_lt_16 k half⟩).toInt
  have smallDot : ∀ k, |pair k 0 + pair k 1| ≤ 7680 := fun k =>
    (abs_add_le _ _).trans (add_le_add (nibbles.abs_pair _ _) (nibbles.abs_pair _ _))
  have smallSum : ∀ k, |pair k 0 + pair k 1 + acc k| ≤ bound + 7680 := fun k =>
    (abs_add_le _ _).trans (by linarith [smallDot k, small k])
  refine ⟨fun k => pair k 0 + pair k 1 + acc k, ?_, smallSum, ?_⟩
  · apply lanes_eq
    intro k
    rw [relaxedPair_eq nibbles, relaxedPair_eq nibbles, Option.bind_some, Option.bind_some]
    show (checked 32 (pair k 0 + pair k 1)).bind _ = _
    rw [checked_eq_some (smallDot k) (by decide), Option.bind_some]
    exact checked_eq_some (smallSum k) fits
  · rw [Finset.sum_add_distrib, add_comm]
    congr 1
    rw [sum_halves (n := 8), Fin.sum_univ_four, Fin.sum_univ_eight, Fin.sum_univ_eight]
    show _ = (w 0).toInt * (xs 0).toInt + (w 1).toInt * (xs 1).toInt +
      (w 2).toInt * (xs 2).toInt + (w 3).toInt * (xs 3).toInt + (w 4).toInt * (xs 4).toInt +
      (w 5).toInt * (xs 5).toInt + (w 6).toInt * (xs 6).toInt + (w 7).toInt * (xs 7).toInt +
      ((w 8).toInt * (xs 8).toInt + (w 9).toInt * (xs 9).toInt +
      (w 10).toInt * (xs 10).toInt + (w 11).toInt * (xs 11).toInt +
      (w 12).toInt * (xs 12).toInt + (w 13).toInt * (xs 13).toInt +
      (w 14).toInt * (xs 14).toInt + (w 15).toInt * (xs 15).toInt)
    show ((w 0).toInt * (xs 0).toInt + (w 1).toInt * (xs 1).toInt +
      ((w 2).toInt * (xs 2).toInt + (w 3).toInt * (xs 3).toInt)) +
      ((w 4).toInt * (xs 4).toInt + (w 5).toInt * (xs 5).toInt +
      ((w 6).toInt * (xs 6).toInt + (w 7).toInt * (xs 7).toInt)) +
      ((w 8).toInt * (xs 8).toInt + (w 9).toInt * (xs 9).toInt +
      ((w 10).toInt * (xs 10).toInt + (w 11).toInt * (xs 11).toInt)) +
      ((w 12).toInt * (xs 12).toInt + (w 13).toInt * (xs 13).toInt +
      ((w 14).toInt * (xs 14).toInt + (w 15).toInt * (xs 15).toInt)) = _
    ring

theorem lanes_dotAdd (relaxed : Bool) (nibbles : Nibbles w) {acc : Fin 4 → Int} {bound : Int}
    (small : ∀ k, |acc k| ≤ bound) (fits : bound + 7680 < 2 ^ 31) :
    Lanes (dotAdd relaxed w xs acc) (bound + 7680)
      (∑ k, acc k + ∑ i, (w i).toInt * (xs i).toInt) := by
  unfold dotAdd
  split
  · exact lanes_relaxed nibbles small fits
  · apply (lanes_dot16 nibbles).bind
    intro v smallV sumV
    rw [← sumV]
    exact lanes_add small smallV fits

end Dots

/-! ### The vector kernel -/

section Vector

variable (relaxed : Bool) (weight : Q4KMBlock) (x : Q8KBlock)

theorem toInt_toInt8 {byte : UInt8} (small : byte.toNat ≤ 15) :
    byte.toInt8.toInt = (byte.toNat : Int) := by
  show byte.toBitVec.toInt = _
  exact BitVec.toInt_eq_toNat_of_lt (by show 2 * byte.toNat < _; omega)

theorem lanes_laneDots (p : Fin 4) (isHi : Bool) (s : Fin 8)
    (isBlock : s = if isHi then highBlock p else lowBlock p) :
    Lanes (laneDots relaxed weight x p isHi) 15360 (dotOf weight x s) := by
  have isQuant : ∀ i, quant weight.qs s i = nibble isHi (weight.qs (byteAt p i)) := by
    intro i
    rw [isBlock]
    cases isHi
    · exact quant_lowBlock _ p i
    · exact quant_highBlock _ p i
  have nibbles : ∀ h, Nibbles fun k => (nibble isHi (weightsFrom weight p h k)).toInt8 := by
    intro h k
    rw [toInt_toInt8 (nibble_le _ _)]
    exact abs_natCast_le (nibble_le _ _)
  have part : ∀ h : Fin 2, ∑ k, ((nibble isHi (weightsFrom weight p h k)).toInt8).toInt *
      (quantsFrom x s h k).toInt = ∑ k : Fin 16, productOf weight x s ⟨h * 16 + k, by omega⟩ := by
    intro h
    apply Finset.sum_congr rfl
    intro k _
    rw [toInt_toInt8 (nibble_le _ _), productOf, isQuant]
    rfl
  have start : ∀ k : Fin 4, |(fun _ => 0 : Fin 4 → Int) k| ≤ 0 := fun _ => le_of_eq abs_zero
  unfold laneDots
  rw [← isBlock]
  have two : List.finRange 2 = [0, 1] := rfl
  rw [two, List.foldlM_cons]
  apply (lanes_dotAdd relaxed (nibbles 0) start (by decide)).bind
  intro first smallFirst sumFirst
  rw [List.foldlM_cons]
  apply (lanes_dotAdd relaxed (nibbles 1) smallFirst (by decide)).bind
  intro second smallSecond sumSecond
  refine ⟨second, rfl, smallSecond, ?_⟩
  rw [sumSecond, sumFirst, part, part, Finset.sum_const_zero, zero_add]
  symm
  unfold dotOf
  rw [sum_halves (n := 16)]
  congr 1

theorem lanes_addScaled (s : Fin 8) {dots sumi : Fin 4 → Int} {bound total : Int}
    (smallDots : ∀ k, |dots k| ≤ 15360) (sumDots : ∑ k, dots k = total)
    (smallSumi : ∀ k, |sumi k| ≤ bound) (fits : bound + 967680 < 2 ^ 31) :
    Lanes (addScaled weight s dots sumi) (bound + 967680)
      (∑ k, sumi k + scaleOf weight s * total) := by
  unfold addScaled
  apply (lanes_mul smallDots (abs_scaleOf weight s) (by decide)).bind
  intro v smallV sumV
  rw [sumDots, mul_comm] at sumV
  rw [← sumV]
  exact lanes_add smallSumi smallV fits

/-- What the two sub-blocks of a pair add to the scaled dots. -/
def pairOf (p : Fin 4) : Int :=
  scaleOf weight (lowBlock p) * dotOf weight x (lowBlock p) +
    scaleOf weight (highBlock p) * dotOf weight x (highBlock p)

theorem lanes_sumPair (p : Fin 4) {sumi : Fin 4 → Int} {bound : Int}
    (small : ∀ k, |sumi k| ≤ bound) (fits : bound + 1935360 < 2 ^ 31) :
    Lanes (sumPair relaxed weight x sumi p) (bound + 1935360)
      (∑ k, sumi k + pairOf weight x p) := by
  unfold sumPair
  apply (lanes_laneDots relaxed weight x p false (lowBlock p) rfl).bind
  intro accLo smallLo sumLo
  apply (lanes_laneDots relaxed weight x p true (highBlock p) rfl).bind
  intro accHi smallHi sumHi
  apply (lanes_addScaled weight (lowBlock p) smallLo sumLo small (by omega)).bind
  intro v smallV sumV
  have added := lanes_addScaled weight (highBlock p) smallHi sumHi smallV (by omega)
  rw [sumV, add_assoc, add_assoc] at added
  exact added

/-- All the scaled dots, in lanes. -/
theorem lanes_sumPairs (list : List (Fin 4)) : ∀ {sumi : Fin 4 → Int} {bound : Int},
    (∀ k, |sumi k| ≤ bound) → bound + list.length * 1935360 < 2 ^ 31 →
      Lanes (list.foldlM (sumPair relaxed weight x) sumi) (bound + list.length * 1935360)
        (∑ k, sumi k + (list.map (pairOf weight x)).sum) := by
  induction list with
  | nil =>
      intro sumi bound small _
      refine ⟨sumi, rfl, fun k => (small k).trans (by simp), by simp⟩
  | cons p list ih =>
      intro sumi bound small fits
      rw [List.length_cons, Nat.cast_succ, add_mul, one_mul] at fits ⊢
      have rest : (0 : Int) ≤ list.length * 1935360 := by positivity
      rw [List.foldlM_cons]
      apply (lanes_sumPair relaxed weight x p small (by linarith)).bind
      intro v smallV sumV
      have later := ih smallV (by linarith)
      rw [sumV, add_assoc, add_assoc, add_comm (1935360 : Int)] at later
      rw [List.map_cons, List.sum_cons]
      exact later

theorem sum_pairs (f : Fin 8 → Int) : ∑ p, (f (lowBlock p) + f (highBlock p)) = ∑ s, f s := by
  rw [Fin.sum_univ_four, Fin.sum_univ_eight]
  show f 0 + f 1 + (f 2 + f 3) + (f 4 + f 5) + (f 6 + f 7) = _
  ring

theorem vecDotSimd128_eq : vecDotQ4KQ8KSimd128 relaxed weight x =
    some (-(x.d * weight.dmin * ((∑ s, bsumOf x s * minOf weight s : Int) : ℚ)) +
      x.d * weight.d * ((∑ s, scaleOf weight s * dotOf weight x s : Int) : ℚ)) := by
  have mins : accumulate 32 (minTerm weight x) (List.finRange 8) 0 =
      some (∑ s, bsumOf x s * minOf weight s) := by
    have small : ∀ s ∈ List.finRange 8, |bsumOf x s * minOf weight s| ≤ (4128768 : Nat) :=
      fun s _ => abs_mul_le (abs_bsumOf x s) (abs_minOf weight s)
    have fits : |(0 : Int)| + ((List.finRange 8).length * 4128768 : Nat) < 2 ^ (32 - 1) := by
      rw [List.length_finRange]
      decide
    rw [accumulate_eq_some (fun s _ => minTerm_eq weight x s) small fits, zero_add,
      Fin.sum_univ_def]
  have start : ∀ k : Fin 4, |(fun _ => 0 : Fin 4 → Int) k| ≤ 0 := fun _ => le_of_eq abs_zero
  obtain ⟨sumi, isSumi, small, sum⟩ := lanes_sumPairs relaxed weight x (List.finRange 4) start
    (by rw [List.length_finRange]; decide)
  rw [List.length_finRange] at small
  rw [Finset.sum_const_zero, zero_add, ← Fin.sum_univ_def] at sum
  have total : hsum sumi = some (∑ s, scaleOf weight s * dotOf weight x s) := by
    rw [hsum_eq small (by decide), sum, ← sum_pairs]
    rfl
  unfold vecDotQ4KQ8KSimd128
  simp only [mins, isSumi, total, Option.bind_some, Option.map_some]

end Vector

/-! ### Agreement -/

/-- The sums of an activation block are those of its quants. -/
def Summed (x : Q8KBlock) : Prop :=
  ∀ g : Fin 16, (x.bsums g).toInt = ∑ j : Fin 16, (x.qs ⟨g * 16 + j, by omega⟩).toInt

def dotReference (weight : Q4KMBlock) (x : Q8KBlock) : ℚ :=
  ∑ i, dequantQ4KBlock (decodeQ4KBlock weight) (fun _ => 0) i * (x.d * ((x.qs i).toInt : ℚ))

theorem Summed.bsumOf_eq {x : Q8KBlock} (summed : Summed x) (s : Fin 8) :
    bsumOf x s = ∑ i, (x.qs (element s i)).toInt := by
  unfold bsumOf
  rw [summed, summed, sum_halves (n := 16)]
  congr 1
  all_goals
    apply Finset.sum_congr rfl
    intro i _
    congr 2
    apply Fin.ext
    simp only [element]
    omega

/-- With the sums of its quants, an activation block gives the sum of the products. -/
theorem reference_eq (weight : Q4KMBlock) {x : Q8KBlock} (summed : Summed x) :
    dotReference weight x = x.d * ∑ s, subBlockOf weight x s := by
  unfold dotReference
  rw [sum_elements, Finset.mul_sum]
  apply Finset.sum_congr rfl
  intro s _
  unfold subBlockOf
  rw [summed.bsumOf_eq s, dotOf]
  push_cast
  rw [Finset.mul_sum, Finset.mul_sum, ← Finset.sum_sub_distrib, Finset.mul_sum]
  apply Finset.sum_congr rfl
  intro i _
  rw [dequant_element, Q4KBlock.weight, productOf, scaleOf, minOf]
  simp only [decodeQ4KBlock]
  push_cast
  ring

theorem simd_eq_scalar (weight : Q4KMBlock) (x : Q8KBlock) :
    -(x.d * weight.dmin * ((∑ s, bsumOf x s * minOf weight s : Int) : ℚ)) +
      x.d * weight.d * ((∑ s, scaleOf weight s * dotOf weight x s : Int) : ℚ) =
        x.d * ∑ s, subBlockOf weight x s := by
  unfold subBlockOf
  push_cast
  rw [Finset.sum_sub_distrib, mul_sub, Finset.mul_sum, Finset.mul_sum, Finset.mul_sum,
    Finset.mul_sum, neg_add_eq_sub]
  congr 1
  · apply Finset.sum_congr rfl
    intro s _
    ring
  · apply Finset.sum_congr rfl
    intro s _
    ring

/-- A header packed from pairs of six bits gives them back, no `i32` of the kernels overflows, and
with the sums of its quants an activation block gives the sum of the products in both. -/
theorem vecDots_agree {sc6 mn6 : Fin 8 → UInt8} (six : ∀ j, sc6 j < 64 ∧ mn6 j < 64)
    {weight : Q4KMBlock} (packed : weight.scales = packQ4KScales sc6 mn6) (x : Q8KBlock) :
    (∀ j, q4KGetScaleMin j weight.scales = (sc6 j, mn6 j)) ∧
    ∃ dot, vecDotQ4KQ8KScalar weight x = some dot ∧
      (∀ relaxed, vecDotQ4KQ8KSimd128 relaxed weight x = some dot) ∧
      (Summed x → dot = dotReference weight x) := by
  constructor
  · intro j
    rw [packed, getScaleMin_packed, and_63 (six j).1, and_63 (six j).2]
  · refine ⟨_, vecDotScalar_eq weight x, fun relaxed => ?_, fun summed => ?_⟩
    · rw [vecDotSimd128_eq, simd_eq_scalar]
    · exact (reference_eq weight summed).symm

def onesWeight : Q4KMBlock := ⟨1, 1, packQ4KScales (fun _ => 1) fun _ => 1, fun _ => 0x11⟩

def onesQuants : Q8KBlock := ⟨1, fun _ => 1, fun _ => 16⟩

theorem vecDots_agree_ones :
    (∀ j, q4KGetScaleMin j onesWeight.scales = (1, 1)) ∧
    ∃ dot, vecDotQ4KQ8KScalar onesWeight onesQuants = some dot ∧
      (∀ relaxed, vecDotQ4KQ8KSimd128 relaxed onesWeight onesQuants = some dot) ∧
      (Summed onesQuants → dot = dotReference onesWeight onesQuants) :=
  vecDots_agree (fun _ => ⟨by decide, by decide⟩) rfl onesQuants

end Rayzor.Quant
