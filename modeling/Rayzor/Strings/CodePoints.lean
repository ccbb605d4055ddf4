import Rayzor.Library.Segments
import Rayzor.Library.Utf8Scan

/-!
Contract: where the characters of a string's bytes begin, in text or in bytes that are none.
-/

namespace Rayzor.Strings

open Library

/-- The bytes that a first byte asks for, where it asks for any. -/
def wanted (lead : UInt8) : Option Nat :=
  if lead ≤ 0x7F then none
  else if 0xC2 ≤ lead && lead ≤ 0xDF then some 2
  else if 0xE0 ≤ lead && lead ≤ 0xEF then some 3
  else if 0xF0 ≤ lead && lead ≤ 0xF4 then some 4
  else none

def charWidth (b : List UInt8) (i : Nat) : Nat :=
  match wanted (b.getD i 0) with
  | none => 1
  | some want =>
      if i + want ≤ b.length &&
        ((b.drop (i + 1)).take (want - 1)).all (fun c => c &&& 0xC0 == 0x80)
      then want else 1

/-- The code point starting at byte `i`, and its byte width. -/
def decodeChar (b : List UInt8) (i : Nat) : UInt32 × Nat :=
  let w := charWidth b i
  let tail (k : Nat) : UInt32 := (b.getD (i + k) 0 &&& 0x3F).toUInt32
  let lead : UInt32 := (b.getD i 0).toUInt32
  let code :=
    match w with
    | 1 => lead
    | 2 => ((lead &&& 0x1F) <<< 6) ||| tail 1
    | 3 => ((lead &&& 0x0F) <<< 12) ||| (tail 1 <<< 6) ||| tail 2
    | _ => ((lead &&& 0x07) <<< 18) ||| (tail 1 <<< 12) ||| (tail 2 <<< 6) ||| tail 3
  (code, w)

theorem wanted_bounds {lead : UInt8} {want : Nat} (asks : wanted lead = some want) :
    2 ≤ want ∧ want ≤ 4 := by
  rw [wanted] at asks
  split_ifs at asks <;> cases asks <;> decide

theorem charWidth_pos (b : List UInt8) (i : Nat) : 0 < charWidth b i := by
  rw [charWidth]
  split
  case h_1 => exact Nat.one_pos
  case h_2 want asks =>
    have bounds := wanted_bounds asks
    split_ifs <;> omega

def isAscii (b : List UInt8) : Bool := b.all (· < 0x80)

def charCountFrom (b : List UInt8) (i n : Nat) : Nat :=
  if i < b.length then charCountFrom b (i + charWidth b i) (n + 1) else n
  termination_by b.length - i
  decreasing_by have := charWidth_pos b i; omega

def charCount (b : List UInt8) : Nat :=
  if isAscii b then b.length
  else
    match Utf8.characters b with
    | some text => text.length
    | none => charCountFrom b 0 0

/-- The scan that steps over characters -/
def advanceCharsFrom (b : List UInt8) (count i n : Nat) : Nat :=
  if n < count ∧ i < b.length then advanceCharsFrom b count (i + charWidth b i) (n + 1) else i
  termination_by b.length - i
  decreasing_by have := charWidth_pos b i; omega

def advanceChars (b : List UInt8) (start count : Nat) : Nat :=
  let start := min start b.length
  -- An ASCII run is one byte per character.
  let probe := min count (b.length - start)
  if isAscii ((b.drop start).take probe) then start + probe else advanceCharsFrom b count start 0

/-- Byte offset of character `index`, clamped to the length. -/
def charToByte (b : List UInt8) (index : Nat) : Nat := advanceChars b 0 index

/-- The scan that counts the characters before an offset -/
def byteToCharFrom (b : List UInt8) (offset i n : Nat) : Nat :=
  if i < offset then byteToCharFrom b offset (i + charWidth b i) (n + 1) else n
  termination_by offset - i
  decreasing_by have := charWidth_pos b i; omega

/-- Character index of byte offset `offset`, which lies on a character boundary. -/
def byteToChar (b : List UInt8) (offset : Nat) : Nat :=
  let offset := min offset b.length
  if isAscii (b.take offset) then offset else byteToCharFrom b offset 0 0

theorem byte_forall {p : UInt8 → Bool}
    (checked : ∀ value : Fin 256, p (UInt8.ofNat value) = true) (c : UInt8) : p c = true := by
  have same := checked ⟨c.toNat, UInt8.toNat_lt c⟩
  rwa [UInt8.ofNat_toNat] at same

theorem wanted_of_continuation {c : UInt8} (continues : (c &&& 0xC0 == 0x80) = true) :
    wanted c = none := by
  have checked := byte_forall
    (p := fun c => !(c &&& 0xC0 == 0x80) || (wanted c).isNone) (by decide +kernel) c
  rw [continues, Bool.not_true, Bool.false_or, Option.isNone_iff_eq_none] at checked
  exact checked

theorem wanted_of_ascii {c : UInt8} (ascii : c < 0x80) : wanted c = none := by
  have checked := byte_forall
    (p := fun c => !decide (c < 0x80) || (wanted c).isNone) (by decide +kernel) c
  rw [decide_eq_true ascii, Bool.not_true, Bool.false_or, Option.isNone_iff_eq_none] at checked
  exact checked

/-- The bytes that follow a first byte are all there. -/
def Completed (list : List UInt8) (want : Nat) : Prop :=
  want ≤ list.length ∧ ∀ c ∈ (list.drop 1).take (want - 1), (c &&& 0xC0 == 0x80) = true

theorem charWidth_drop (b : List UInt8) (i : Nat) : charWidth b i = charWidth (b.drop i) 0 := by
  have lead : (b.drop i).getD 0 0 = b.getD i 0 := by
    rw [List.getD_eq_getElem?_getD, List.getD_eq_getElem?_getD, List.getElem?_drop, Nat.add_zero]
  rw [charWidth, charWidth, lead]
  cases asks : wanted (b.getD i 0) with
  | none => rfl
  | some want =>
      have bounds := wanted_bounds asks
      have inside : i < b.length := by
        by_contra past
        rw [List.getD_eq_getElem?_getD, List.getElem?_eq_none (Nat.le_of_not_lt past)] at asks
        cases asks
      have same : decide (i + want ≤ b.length) = decide (0 + want ≤ (b.drop i).length) := by
        rw [List.length_drop]
        exact decide_eq_decide.mpr (by omega)
      rw [List.drop_drop, Nat.zero_add]
      dsimp only
      rw [same]

theorem charWidth_of_none {list : List UInt8} (alone : wanted (list.getD 0 0) = none) :
    charWidth list 0 = 1 := by
  rw [charWidth, alone]

theorem charWidth_of_some {list : List UInt8} {want : Nat}
    (asks : wanted (list.getD 0 0) = some want) :
    (Completed list want → charWidth list 0 = want) ∧
      (¬ Completed list want → charWidth list 0 = 1) := by
  rw [charWidth, asks, Completed]
  dsimp only
  rw [Nat.zero_add, ← List.all_eq_true]
  constructor
  · intro completed
    rw [if_pos]
    simp only [completed.1, completed.2, decide_true, Bool.and_self]
  · intro broken
    rw [if_neg]
    intro both
    rw [Bool.and_eq_true, decide_eq_true_eq] at both
    exact broken both
theorem Completed.take {list : List UInt8} {want n : Nat} (within : want ≤ n) :
    Completed (list.take n) want ↔ Completed list want := by
  have same : ((list.take n).drop 1).take (want - 1) = (list.drop 1).take (want - 1) := by
    rw [List.drop_take, List.take_take, min_eq_left (by omega)]
  rw [Completed, Completed, same, List.length_take, le_min_iff]
  exact and_congr_left fun _ => and_iff_right within

theorem getD_take {list : List UInt8} {n : Nat} (positive : 0 < n) :
    (list.take n).getD 0 0 = list.getD 0 0 := by
  rw [List.getD_eq_getElem?_getD, List.getD_eq_getElem?_getD, List.getElem?_take_of_lt positive]

/-- A list cut off behind its first character, or in it -/
theorem charWidth_take {list : List UInt8} {n : Nat} (positive : 0 < n) :
    charWidth (list.take n) 0 = if charWidth list 0 ≤ n then charWidth list 0 else 1 := by
  have lead := @getD_take list n positive
  cases asks : wanted (list.getD 0 0) with
  | none =>
      rw [charWidth_of_none asks, charWidth_of_none (lead ▸ asks), if_pos (Nat.succ_le_of_lt positive)]
  | some want =>
      have bounds := wanted_bounds asks
      have ofList := charWidth_of_some asks
      have ofTake := @charWidth_of_some (list.take n) want (lead ▸ asks)
      by_cases within : want ≤ n
      · rw [Completed.take within] at ofTake
        by_cases completed : Completed list want
        · rw [ofList.1 completed, ofTake.1 completed, if_pos within]
        · rw [ofList.2 completed, ofTake.2 completed, if_pos (Nat.succ_le_of_lt positive)]
      · have broken : ¬ Completed (list.take n) want := by
          intro completed
          have short := completed.1
          rw [List.length_take] at short
          omega
        rw [ofTake.2 broken]
        by_cases completed : Completed list want
        · rw [ofList.1 completed, if_neg within]
        · rw [ofList.2 completed, if_pos (Nat.succ_le_of_lt positive)]

theorem charWidth_fits {list : List UInt8} (nonempty : list ≠ []) :
    charWidth list 0 ≤ list.length := by
  have height := List.length_pos_of_ne_nil nonempty
  have taken := @charWidth_take list list.length height
  rw [List.take_length] at taken
  split_ifs at taken
  case pos fits => exact fits
  case neg => omega

theorem charWidth_inner {list : List UInt8} {n : Nat} (behind : 0 < n)
    (inside : n < charWidth list 0) : charWidth (list.drop n) 0 = 1 := by
  apply charWidth_of_none
  cases asks : wanted (list.getD 0 0) with
  | none =>
      rw [charWidth_of_none asks] at inside
      omega
  | some want =>
      have completed : Completed list want := by
        by_contra broken
        rw [(charWidth_of_some asks).2 broken] at inside
        omega
      rw [(charWidth_of_some asks).1 completed] at inside
      have found : n < list.length := Nat.lt_of_lt_of_le inside completed.1
      have continues : list[n] ∈ (list.drop 1).take (want - 1) := by
        apply List.mem_of_getElem? (i := n - 1)
        rw [List.getElem?_take_of_lt (by omega), List.getElem?_drop, Nat.add_sub_cancel' behind,
          List.getElem?_eq_getElem found]
      rw [List.getD_eq_getElem?_getD, List.getElem?_drop, Nat.add_zero,
        List.getElem?_eq_getElem found]
      exact wanted_of_continuation (completed.2 _ continues)

def codePoints : Segmentation UInt8 where
  width list := charWidth list 0
  positive list := charWidth_pos list 0
  fits := charWidth_fits
  whole := by
    intro list n within
    rw [charWidth_take (Nat.lt_of_lt_of_le (charWidth_pos list 0) within), if_pos within]
  cut := by
    intro list n positive inside
    rw [charWidth_take positive, if_neg (Nat.not_le_of_lt inside)]
  inner := charWidth_inner

theorem codePoints_width (list : List UInt8) : codePoints.width list = charWidth list 0 := rfl

end Rayzor.Strings
