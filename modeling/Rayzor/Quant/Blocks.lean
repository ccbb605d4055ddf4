import Rayzor.Library.Checked

/-!
Contract: blocks of Q4_K_M weights and Q8_K activations, and the kernels that multiply them.

Owns: the packed header, dequantisation, the scalar kernel, and the vector kernel with its
reduction at the end.

Does not own: floats. The scales of a block are rationals and are not rounded; an `i32` that
overflows stops a kernel.
-/

namespace Rayzor.Quant

open Library (checked)
open Library.Checked (accumulate)

structure Q4KMBlock where
  d : ℚ
  dmin : ℚ
  scales : Fin 12 → UInt8
  qs : Fin 128 → UInt8

structure Q8KBlock where
  d : ℚ
  qs : Fin 256 → Int8
  bsums : Fin 16 → Int16

structure Q4KBlock where
  scales : Fin 8 → ℚ
  mins : Fin 8 → ℚ
  quants : Fin 128 → UInt8

def q4KGetScaleMin (j : Fin 8) (header : Fin 12 → UInt8) : UInt8 × UInt8 :=
  if low : j.val < 4 then
    (header ⟨j, by omega⟩ &&& 63, header ⟨j + 4, by omega⟩ &&& (63 : UInt8))
  else
    ((header ⟨j + 4, by omega⟩ &&& (0x0F : UInt8)) ||| ((header ⟨j - 4, by omega⟩ >>> (6 : UInt8)) <<< (4 : UInt8)),
      (header ⟨j + 4, by omega⟩ >>> (4 : UInt8)) ||| ((header ⟨j, by omega⟩ >>> (6 : UInt8)) <<< (4 : UInt8)))

/-- The writes of one of the first four pairs. -/
def packLow (sc6 mn6 : Fin 8 → UInt8) (h : Fin 12 → UInt8) (j : Fin 4) : Fin 12 → UInt8 :=
  let h := Function.update h ⟨j, by omega⟩ (sc6 ⟨j, by omega⟩ &&& (63 : UInt8))
  Function.update h ⟨j + 4, by omega⟩ (mn6 ⟨j, by omega⟩ &&& (63 : UInt8))

/-- The writes of pair `j + 4`. -/
def packHigh (sc6 mn6 : Fin 8 → UInt8) (h : Fin 12 → UInt8) (j : Fin 4) : Fin 12 → UInt8 :=
  let sc := sc6 ⟨j + 4, by omega⟩
  let mn := mn6 ⟨j + 4, by omega⟩
  let h := Function.update h ⟨j + 8, by omega⟩ ((sc &&& (0x0F : UInt8)) ||| ((mn &&& (0x0F : UInt8)) <<< (4 : UInt8)))
  let h := Function.update h ⟨j, by omega⟩ (h ⟨j, by omega⟩ ||| (((sc >>> (4 : UInt8)) &&& (3 : UInt8)) <<< (6 : UInt8)))
  Function.update h ⟨j + 4, by omega⟩ (h ⟨j + 4, by omega⟩ ||| (((mn >>> (4 : UInt8)) &&& (3 : UInt8)) <<< (6 : UInt8)))

def packQ4KScales (sc6 mn6 : Fin 8 → UInt8) : Fin 12 → UInt8 :=
  (List.finRange 4).foldl (packHigh sc6 mn6)
    ((List.finRange 4).foldl (packLow sc6 mn6) fun _ => 0)

def decodeQ4KBlock (block : Q4KMBlock) : Q4KBlock where
  scales j := block.d * ((q4KGetScaleMin j block.scales).1.toNat : ℚ)
  mins j := block.dmin * ((q4KGetScaleMin j block.scales).2.toNat : ℚ)
  quants := block.qs

def element (s : Fin 8) (i : Fin 32) : Fin 256 := ⟨s * 32 + i, by omega⟩

def byteAt (p : Fin 4) (i : Fin 32) : Fin 128 := ⟨p * 32 + i, by omega⟩

def lowBlock (p : Fin 4) : Fin 8 := ⟨2 * p, by omega⟩

def highBlock (p : Fin 4) : Fin 8 := ⟨2 * p + 1, by omega⟩

def dequantByte (block : Q4KBlock) (s : Fin 4) (out : Fin 256 → ℚ) (i : Fin 32) : Fin 256 → ℚ :=
  let byte := block.quants (byteAt s i)
  let qLo := byte &&& 0x0F
  let qHi := byte >>> 4
  let out := Function.update out (element (lowBlock s) i)
    (block.scales (lowBlock s) * (qLo.toNat : ℚ) - block.mins (lowBlock s))
  Function.update out (element (highBlock s) i)
    (block.scales (highBlock s) * (qHi.toNat : ℚ) - block.mins (highBlock s))

/-- `dequant_q4_k_block`, the scalar loops. -/
def dequantQ4KBlock (block : Q4KBlock) (out : Fin 256 → ℚ) : Fin 256 → ℚ :=
  (List.finRange 4).foldl (fun out s => (List.finRange 32).foldl (dequantByte block s) out) out

/-- Four bits of a byte. -/
def nibble (isHi : Bool) (byte : UInt8) : UInt8 := if isHi then byte >>> 4 else byte &&& 0x0F

def blockSum (x : Q8KBlock) (s : Fin 8) : Option Int :=
  checked 32 ((x.bsums ⟨2 * s, by omega⟩).toInt + (x.bsums ⟨2 * s + 1, by omega⟩).toInt)

def product (weight : Q4KMBlock) (x : Q8KBlock) (s : Fin 8) (i : Fin 32) : Option Int :=
  let byte := weight.qs (byteAt ⟨s / 2, by omega⟩ i)
  checked 32 ((nibble (s.val % 2 = 1) byte).toNat * (x.qs (element s i)).toInt)

def subBlock (weight : Q4KMBlock) (x : Q8KBlock) (s : Fin 8) : Option ℚ :=
  let pair := q4KGetScaleMin s weight.scales
  let subScale := weight.d * (pair.1.toNat : ℚ)
  let subMin := weight.dmin * (pair.2.toNat : ℚ)
  (accumulate 32 (product weight x s) (List.finRange 32) 0).bind fun (sdot : Int) =>
    (blockSum x s).map fun (bsum32 : Int) => subScale * (sdot : ℚ) - subMin * (bsum32 : ℚ)

def vecDotQ4KQ8KScalar (weight : Q4KMBlock) (x : Q8KBlock) : Option ℚ :=
  ((List.finRange 8).foldlM (fun acc s => (subBlock weight x s).map (acc + ·)) 0).map (x.d * ·)

/-- The lanes of a vector of `i32`, unless one of them overflowed. -/
def lanes (lane : Fin 4 → Option Int) : Option (Fin 4 → Int) :=
  (lane 0).bind fun l0 => (lane 1).bind fun l1 => (lane 2).bind fun l2 => (lane 3).map fun l3 =>
    ![l0, l1, l2, l3]

def i32x4Add (a b : Fin 4 → Int) : Option (Fin 4 → Int) := lanes fun k => checked 32 (a k + b k)

def i32x4Mul (a b : Fin 4 → Int) : Option (Fin 4 → Int) := lanes fun k => checked 32 (a k * b k)

def i32x4DotI16x8 (a b : Fin 8 → Int) : Option (Fin 4 → Int) :=
  lanes fun k => checked 32 (a ⟨2 * k, by omega⟩ * b ⟨2 * k, by omega⟩ +
    a ⟨2 * k + 1, by omega⟩ * b ⟨2 * k + 1, by omega⟩)

/-- The two halves of sixteen signed bytes, extended. -/
def extendLow (a : Fin 16 → Int8) (k : Fin 8) : Int := (a ⟨k, by omega⟩).toInt

def extendHigh (a : Fin 16 → Int8) (k : Fin 8) : Int := (a ⟨k + 8, by omega⟩).toInt

def dot16 (a b : Fin 16 → Int8) : Option (Fin 4 → Int) :=
  (i32x4DotI16x8 (extendLow a) (extendLow b)).bind fun low =>
    (i32x4DotI16x8 (extendHigh a) (extendHigh b)).bind fun high => i32x4Add low high

/-- Two neighbouring products of `i32x4.relaxed_dot_i8x16_i7x16_add_s`, added up in 16 bits. -/
def relaxedPair (a b : Fin 16 → Int8) (k : Fin 4) (half : Fin 2) : Option Int :=
  checked 16 ((a ⟨4 * k + 2 * half, by omega⟩).toInt * (b ⟨4 * k + 2 * half, by omega⟩).toInt +
    (a ⟨4 * k + 2 * half + 1, by omega⟩).toInt * (b ⟨4 * k + 2 * half + 1, by omega⟩).toInt)

def relaxedDotAdd (a b : Fin 16 → Int8) (c : Fin 4 → Int) : Option (Fin 4 → Int) :=
  lanes fun k => (relaxedPair a b k 0).bind fun first => (relaxedPair a b k 1).bind fun second =>
    (checked 32 (first + second)).bind fun dot => checked 32 (dot + c k)

/-- Sixteen nibbles and sixteen quants, with either instruction. -/
def dotAdd (relaxed : Bool) (w xs : Fin 16 → Int8) (acc : Fin 4 → Int) : Option (Fin 4 → Int) :=
  if relaxed then relaxedDotAdd xs w acc else (dot16 w xs).bind (i32x4Add acc)

/-- Sixteen bytes of the weights or quants, from a multiple of sixteen on. -/
def weightsFrom (weight : Q4KMBlock) (p : Fin 4) (h : Fin 2) (k : Fin 16) : UInt8 :=
  weight.qs (byteAt p ⟨h * 16 + k, by omega⟩)

def quantsFrom (x : Q8KBlock) (s : Fin 8) (h : Fin 2) (k : Fin 16) : Int8 :=
  x.qs (element s ⟨h * 16 + k, by omega⟩)

def laneDots (relaxed : Bool) (weight : Q4KMBlock) (x : Q8KBlock) (p : Fin 4) (isHi : Bool) :
    Option (Fin 4 → Int) :=
  let s := if isHi then highBlock p else lowBlock p
  (List.finRange 2).foldlM (fun acc h =>
    dotAdd relaxed (fun k => (nibble isHi (weightsFrom weight p h k)).toInt8) (quantsFrom x s h)
      acc) fun _ => 0

/-- The lanes of one sub-block times its scale, added to those so far. -/
def addScaled (weight : Q4KMBlock) (s : Fin 8) (dots sumi : Fin 4 → Int) :
    Option (Fin 4 → Int) :=
  (i32x4Mul dots fun _ => ((q4KGetScaleMin s weight.scales).1.toNat : Int)).bind (i32x4Add sumi)

def sumPair (relaxed : Bool) (weight : Q4KMBlock) (x : Q8KBlock) (sumi : Fin 4 → Int) (p : Fin 4) :
    Option (Fin 4 → Int) :=
  (laneDots relaxed weight x p false).bind fun accLo =>
    (laneDots relaxed weight x p true).bind fun accHi =>
      (addScaled weight (lowBlock p) accLo sumi).bind (addScaled weight (highBlock p) accHi)

def hsum (v : Fin 4 → Int) : Option Int :=
  (checked 32 (v 0 + v 1)).bind fun first =>
    (checked 32 (first + v 2)).bind fun second => checked 32 (second + v 3)

def minTerm (weight : Q4KMBlock) (x : Q8KBlock) (s : Fin 8) : Option Int :=
  (blockSum x s).bind fun bsum =>
    checked 32 (bsum * ((q4KGetScaleMin s weight.scales).2.toNat : Int))

/-- `vec_dot_q4_K_q8_K_simd128`, with or without the relaxed instructions. -/
def vecDotQ4KQ8KSimd128 (relaxed : Bool) (weight : Q4KMBlock) (x : Q8KBlock) : Option ℚ :=
  let d := x.d * weight.d
  let dmin := x.d * weight.dmin
  (accumulate 32 (minTerm weight x) (List.finRange 8) 0).bind fun (minSum : Int) =>
    ((List.finRange 4).foldlM (sumPair relaxed weight x) fun _ => 0).bind fun sumi =>
      (hsum sumi).map fun (total : Int) => -(dmin * (minSum : ℚ)) + d * (total : ℚ)

end Rayzor.Quant
