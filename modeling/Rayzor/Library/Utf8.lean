import Mathlib

/-!
Contract: a text as its bytes in UTF-8.

Owns: the encoding of a text, which of its bytes continue a character, and the
offsets between characters.
-/

namespace Rayzor.Library.Utf8

def encode (text : List Char) : List UInt8 := text.flatMap String.utf8EncodeChar

/-- `10xxxxxx`: a byte of a character that is not its first. -/
def isContinuation (b : UInt8) : Bool := 0x80 ≤ b && b < 0xC0

/-- An offset between two characters, or at an end of the text. -/
def Boundary (text : List Char) (offset : Nat) : Prop :=
  ∃ before after, text = before ++ after ∧ (encode before).length = offset

theorem encode_cons (c : Char) (text : List Char) :
    encode (c :: text) = String.utf8EncodeChar c ++ encode text := rfl

theorem encode_append (before after : List Char) :
    encode (before ++ after) = encode before ++ encode after :=
  List.flatMap_append

theorem encode_injective : Function.Injective encode := by
  intro one other same
  have bytes : one.utf8Encode = other.utf8Encode := congrArg List.toByteArray same
  rw [← String.toByteArray_ofList, ← String.toByteArray_ofList] at bytes
  exact String.ofList_injective (String.toByteArray_inj.mp bytes)

theorem boundary_zero (text : List Char) : Boundary text 0 := ⟨[], text, rfl, rfl⟩

theorem boundary_length (text : List Char) : Boundary text (encode text).length :=
  ⟨text, [], (List.append_nil text).symm, rfl⟩

theorem isContinuation_ofNat {value : Nat} (small : value < 256) :
    isContinuation (UInt8.ofNat value) = true ↔ 128 ≤ value ∧ value < 192 := by
  have same : (UInt8.ofNat value).toNat = value := by
    rw [UInt8.toNat_ofNat']
    exact Nat.mod_eq_of_lt small
  rw [isContinuation, Bool.and_eq_true, decide_eq_true_eq, decide_eq_true_eq, UInt8.le_iff_toNat_le,
    UInt8.lt_iff_toNat_lt, same]
  rfl

/-- The bytes of a character: the first is a byte of ASCII on its own, or starts a
longer run, and every other byte continues it. -/
theorem utf8EncodeChar_bytes {c : Char} {offset : Nat} {b : UInt8}
    (found : (String.utf8EncodeChar c)[offset]? = some b) :
    (isContinuation b = true ↔ 0 < offset) ∧
      (b.toNat < 128 → (String.utf8EncodeChar c).length = 1) := by
  have bound : c.val.toNat < 1114112 := by
    have valid := c.valid
    rcases valid with low | high
    · exact lt_of_lt_of_le low (by decide)
    · exact high.2
  unfold String.utf8EncodeChar at found ⊢
  generalize c.val.toNat = value at bound found
  dsimp only at found ⊢
  split_ifs at found ⊢ <;>
  · rcases offset with _ | _ | _ | _ | offset <;>
      simp only [List.getElem?_cons_zero, List.getElem?_cons_succ, List.getElem?_nil,
        Option.some.injEq, reduceCtorEq] at found <;>
      (rw [← found, isContinuation_ofNat (by omega), UInt8.toNat_ofNat']
       simp only [List.length_cons, List.length_nil, implies_true, and_true]
       omega)

theorem lead_head : ∀ {text : List Char} {b : UInt8}, (encode text)[0]? = some b →
    isContinuation b = false
  | [], _, found => absurd found (by simp [encode])
  | c :: text, b, found => by
      have some : 0 < (String.utf8EncodeChar c).length :=
        List.length_pos_of_ne_nil String.utf8EncodeChar_ne_nil
      rw [encode_cons, List.getElem?_append_left some] at found
      have first := (utf8EncodeChar_bytes found).1
      exact Bool.eq_false_iff.mpr fun continues => Nat.lt_irrefl 0 (first.mp continues)

theorem boundary_of_lead : ∀ {text : List Char} {offset : Nat} {b : UInt8},
    (encode text)[offset]? = some b → isContinuation b = false → Boundary text offset
  | [], _, _, found, _ => absurd found (by simp [encode])
  | c :: text, offset, b, found, lead => by
      rw [encode_cons] at found
      by_cases inside : offset < (String.utf8EncodeChar c).length
      · rw [List.getElem?_append_left inside] at found
        have first := (utf8EncodeChar_bytes found).1
        rw [lead] at first
        have zero : offset = 0 := by
          by_contra later
          exact absurd (first.mpr (Nat.pos_of_ne_zero later)) Bool.false_ne_true
        rw [zero]
        exact boundary_zero _
      · rw [List.getElem?_append_right (Nat.le_of_not_lt inside)] at found
        obtain ⟨before, after, shape, height⟩ := boundary_of_lead found lead
        refine ⟨c :: before, after, by rw [shape, List.cons_append], ?_⟩
        rw [encode_cons, List.length_append, height]
        omega

theorem boundary_of_clean {text : List Char} {offset : Nat}
    (inside : offset ≤ (encode text).length)
    (clean : ∀ b, (encode text)[offset]? = some b → isContinuation b = false) :
    Boundary text offset := by
  rcases Nat.lt_or_eq_of_le inside with before | atEnd
  · have found := List.getElem?_eq_getElem before
    exact boundary_of_lead found (clean _ found)
  · rw [atEnd]
    exact boundary_length text

theorem clean_of_boundary {text : List Char} {offset : Nat} {b : UInt8}
    (boundary : Boundary text offset) (found : (encode text)[offset]? = some b) :
    isContinuation b = false := by
  obtain ⟨before, after, rfl, rfl⟩ := boundary
  rw [encode_append, List.getElem?_append_right (Nat.le_refl _), Nat.sub_self] at found
  exact lead_head found

theorem lead_after_ascii : ∀ {text : List Char} {offset : Nat} {b next : UInt8},
    (encode text)[offset]? = some b → b.toNat < 128 →
    (encode text)[offset + 1]? = some next → isContinuation next = false
  | [], _, _, _, found, _, _ => absurd found (by simp [encode])
  | c :: text, offset, b, next, found, ascii, following => by
      rw [encode_cons] at found following
      by_cases inside : offset < (String.utf8EncodeChar c).length
      · rw [List.getElem?_append_left inside] at found
        have single := (utf8EncodeChar_bytes found).2 ascii
        rw [List.getElem?_append_right (by omega)] at following
        rw [show offset + 1 - (String.utf8EncodeChar c).length = 0 by omega] at following
        exact lead_head following
      · rw [List.getElem?_append_right (by omega)] at found following
        rw [show offset + 1 - (String.utf8EncodeChar c).length =
          offset - (String.utf8EncodeChar c).length + 1 by omega] at following
        exact lead_after_ascii found ascii following

end Rayzor.Library.Utf8
