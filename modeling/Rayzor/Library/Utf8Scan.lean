import Rayzor.Library.Utf8

/-!
Contract: bytes that may or may not encode a text, read as far as they do.

Owns: the scan of one character (`scan`), when bytes encode a text (`isValid`), the bytes
of each of its characters (`characters`), and the text with what is no character replaced
(`lossy`).
-/

namespace Rayzor.Library.Utf8

/-- How many bytes a character with this first byte has. -/
def width (lead : Nat) : Nat :=
  if lead < 0x80 then 1
  else if 0xC2 ≤ lead ∧ lead < 0xE0 then 2
  else if 0xE0 ≤ lead ∧ lead < 0xF0 then 3
  else if 0xF0 ≤ lead ∧ lead < 0xF5 then 4
  else 0

/-- The second byte of a character, which excludes longer forms than needed,
surrogates, and numbers above those of characters. -/
def secondFits (lead second : Nat) : Bool :=
  (if lead = 0xE0 then 0xA0 else if lead = 0xF0 then 0x90 else 0x80) ≤ second &&
    second < (if lead = 0xED then 0xA0 else if lead = 0xF4 then 0x90 else 0xC0)

/-- The bytes that continue a character, of the next `count`. -/
def continuations : Nat → List UInt8 → Nat
  | count + 1, b :: rest => if isContinuation b then continuations count rest + 1 else 0
  | _, _ => 0

/-- The bytes of the first character, or of what stands where it should, and
whether they are a character. -/
def scan (lead : UInt8) (rest : List UInt8) : Nat × Bool :=
  match rest with
  | second :: more =>
      if width lead.toNat ≤ 1 then (1, width lead.toNat == 1)
      else if secondFits lead.toNat second.toNat then
        (2 + continuations (width lead.toNat - 2) more,
          2 + continuations (width lead.toNat - 2) more == width lead.toNat)
      else (1, false)
  | [] => (1, width lead.toNat == 1)

/-- The bytes are the encoding of a text. -/
def isValid : List UInt8 → Bool
  | [] => true
  | lead :: rest => (scan lead rest).2 && isValid (rest.drop ((scan lead rest).1 - 1))
  termination_by bytes => bytes.length
  decreasing_by simp only [List.length_drop, List.length_cons]; omega

def characters : List UInt8 → Option (List (List UInt8))
  | [] => some []
  | lead :: rest =>
      if (scan lead rest).2 then
        (characters (rest.drop ((scan lead rest).1 - 1))).map
          ((lead :: rest).take (scan lead rest).1 :: ·)
      else none
  termination_by bytes => bytes.length
  decreasing_by simp only [List.length_drop, List.length_cons]; omega

/-- The bytes of U+FFFD. -/
def replacement : List UInt8 := [0xEF, 0xBF, 0xBD]

def lossy : List UInt8 → List UInt8
  | [] => []
  | lead :: rest =>
      (if (scan lead rest).2 then (lead :: rest).take (scan lead rest).1 else replacement) ++
        lossy (rest.drop ((scan lead rest).1 - 1))
  termination_by bytes => bytes.length
  decreasing_by simp only [List.length_drop, List.length_cons]; omega

theorem char_bounds (c : Char) :
    c.val.toNat < 0xD800 ∨ 0xDFFF < c.val.toNat ∧ c.val.toNat < 0x110000 := c.valid

theorem continuations_append : ∀ {tail : List UInt8} {count : Nat} {rest : List UInt8},
    (∀ b ∈ tail, isContinuation b = true) → count = tail.length →
    continuations count (tail ++ rest) = tail.length
  | [], _, _, _, isCount => by
      rw [isCount]
      rfl
  | b :: tail, _, rest, continues, isCount => by
      rw [isCount, List.cons_append, List.length_cons, continuations,
        if_pos (continues b List.mem_cons_self),
        continuations_append (fun b' inTail => continues b' (List.mem_cons_of_mem _ inTail)) rfl]

theorem continuations_short : ∀ {tail : List UInt8} {count : Nat},
    (∀ b ∈ tail, isContinuation b = true) → tail.length ≤ count →
    continuations count tail = tail.length
  | [], count, _, _ => by cases count <;> rfl
  | b :: tail, 0, _, short => absurd short (Nat.not_succ_le_zero _)
  | b :: tail, count + 1, continues, short => by
      rw [continuations, if_pos (continues b List.mem_cons_self), continuations_short
        (fun b' inTail => continues b' (List.mem_cons_of_mem _ inTail))
        (Nat.le_of_succ_le_succ short)]
      rfl

/-- The scan of a character of several bytes, whole or cut. -/
theorem scan_several {lead second : UInt8} {tail : List UInt8} (rest : List UInt8)
    (isWidth : width lead.toNat = tail.length + 2)
    (fits : secondFits lead.toNat second.toNat = true)
    (continues : ∀ b ∈ tail, isContinuation b = true) :
    scan lead (second :: tail ++ rest) = (tail.length + 2, true) ∧
      ∀ count, count < tail.length + 1 →
        scan lead ((second :: tail).take count) = (count + 1, false) := by
  constructor
  · rw [List.cons_append, scan, isWidth, if_neg (by omega), if_pos fits, Nat.add_sub_cancel,
      continuations_append continues rfl, Nat.add_comm 2, beq_self_eq_true]
  · intro count short
    cases count with
    | zero => rw [List.take_zero, scan, isWidth]; rfl
    | succ count =>
        have cut : ∀ b ∈ tail.take count, isContinuation b = true :=
          fun b inCut => continues b (List.mem_of_mem_take inCut)
        have height : (tail.take count).length = count := by rw [List.length_take]; omega
        rw [List.take_succ_cons, scan, isWidth, if_neg (by omega), if_pos fits, Nat.add_sub_cancel,
          continuations_short cut (by omega), height, beq_eq_false_iff_ne.mpr (by omega),
          Nat.add_comm 2]

theorem scan_encoded (c : Char) (rest : List UInt8) :
    ∃ lead more, String.utf8EncodeChar c = lead :: more ∧
      scan lead (more ++ rest) = (more.length + 1, true) ∧
      ∀ count, count < more.length → scan lead (more.take count) = (count + 1, false) := by
  have bounds := char_bounds c
  unfold String.utf8EncodeChar
  generalize c.val.toNat = value at bounds
  have byte : ∀ {small : Nat}, small < 256 → (UInt8.ofNat small).toNat = small := by
    intro small isSmall
    rw [UInt8.toNat_ofNat']
    exact Nat.mod_eq_of_lt isSmall
  have last : ∀ number, isContinuation (UInt8.ofNat (number % 64 + 128)) = true := fun number =>
    (isContinuation_ofNat (by omega)).mpr (by omega)
  dsimp only
  split_ifs with one two three
  · have ascii : width (UInt8.ofNat value).toNat = 1 := by
      rw [byte (by omega), width, if_pos (by omega)]
    refine ⟨_, _, rfl, ?_, fun count short => absurd short (Nat.not_lt_zero _)⟩
    rw [List.nil_append]
    cases rest with
    | nil => rw [scan, ascii]; rfl
    | cons second more => rw [scan, ascii]; rfl
  · have several := @scan_several (UInt8.ofNat (value / 64 % 32 + 192))
      (UInt8.ofNat (value % 64 + 128)) [] rest
      (by rw [byte (by omega), width, if_neg (by omega), if_pos (by omega)]; rfl)
      (by
        rw [byte (by omega), byte (by omega), secondFits, Bool.and_eq_true, decide_eq_true_eq,
          decide_eq_true_eq]
        split_ifs <;> omega)
      (fun b inTail => absurd inTail List.not_mem_nil)
    exact ⟨_, _, rfl, several⟩
  · have several := @scan_several (UInt8.ofNat (value / 4096 % 16 + 224))
      (UInt8.ofNat (value / 64 % 64 + 128)) [UInt8.ofNat (value % 64 + 128)] rest
      (by rw [byte (by omega), width, if_neg (by omega), if_neg (by omega), if_pos (by omega)]; rfl)
      (by
        rw [byte (by omega), byte (by omega), secondFits, Bool.and_eq_true, decide_eq_true_eq,
          decide_eq_true_eq]
        split_ifs <;> omega)
      (fun b inTail => by rw [List.mem_singleton.mp inTail]; exact last _)
    exact ⟨_, _, rfl, several⟩
  · have several := @scan_several (UInt8.ofNat (value / 262144 % 8 + 240))
      (UInt8.ofNat (value / 4096 % 64 + 128))
      [UInt8.ofNat (value / 64 % 64 + 128), UInt8.ofNat (value % 64 + 128)] rest
      (by
        rw [byte (by omega), width, if_neg (by omega), if_neg (by omega), if_neg (by omega),
          if_pos (by omega)]
        rfl)
      (by
        rw [byte (by omega), byte (by omega), secondFits, Bool.and_eq_true, decide_eq_true_eq,
          decide_eq_true_eq]
        split_ifs <;> omega)
      (fun b inTail => by
        rcases List.mem_cons.mp inTail with isFirst | inTail
        · rw [isFirst]; exact last _
        · rw [List.mem_singleton.mp inTail]; exact last _)
    exact ⟨_, _, rfl, several⟩

theorem isValid_encode_append : ∀ (text : List Char) (rest : List UInt8),
    isValid (encode text ++ rest) = isValid rest
  | [], _ => rfl
  | c :: text, rest => by
      obtain ⟨lead, more, isBytes, whole, _⟩ := scan_encoded c (encode text ++ rest)
      rw [encode_cons, isBytes, List.append_assoc, List.cons_append, isValid, whole, Bool.true_and,
        Nat.add_sub_cancel, List.drop_left, isValid_encode_append text rest]

theorem isValid_encode (text : List Char) : isValid (encode text) = true := by
  have whole := isValid_encode_append text []
  rw [List.append_nil] at whole
  rw [whole, isValid]

theorem isSome_characters : ∀ bytes : List UInt8, (characters bytes).isSome = isValid bytes
  | [] => by
      rw [characters, isValid]
      rfl
  | lead :: rest => by
      rw [characters, isValid, ← isSome_characters (rest.drop ((scan lead rest).1 - 1))]
      cases (scan lead rest).2 with
      | false => rfl
      | true => rw [if_pos rfl, Option.isSome_map, Bool.true_and]
  termination_by bytes => bytes.length
  decreasing_by simp only [List.length_drop, List.length_cons]; omega

theorem lossy_encode_append : ∀ (text : List Char) (rest : List UInt8),
    lossy (encode text ++ rest) = encode text ++ lossy rest
  | [], _ => rfl
  | c :: text, rest => by
      obtain ⟨lead, more, isBytes, whole, _⟩ := scan_encoded c (encode text ++ rest)
      have first : (lead :: (more ++ (encode text ++ rest))).take (more.length + 1) =
          lead :: more := by
        rw [List.take_succ_cons, List.take_left]
      rw [encode_cons, isBytes, List.append_assoc, List.cons_append, lossy, whole, if_pos rfl,
        Nat.add_sub_cancel, List.drop_left, lossy_encode_append text rest, first,
        List.append_assoc]

theorem lossy_encode (text : List Char) : lossy (encode text) = encode text := by
  have whole := lossy_encode_append text []
  rw [List.append_nil] at whole
  rw [whole, lossy, List.append_nil]

/-- A cut behind some bytes of a text stands between two characters or cuts one. -/
theorem take_encode : ∀ (text : List Char) (count : Nat), ∃ before after,
    text = before ++ after ∧ ((encode text).take count = encode before ∨
      ∃ c cut,
        (encode text).take count = encode before ++ (String.utf8EncodeChar c).take (cut + 1) ∧
        cut + 1 < (String.utf8EncodeChar c).length)
  | [], _ => ⟨[], [], rfl, Or.inl (List.take_nil)⟩
  | c :: text, count => by
      by_cases inside : count < (String.utf8EncodeChar c).length
      · refine ⟨[], c :: text, rfl, ?_⟩
        rw [encode_cons, List.take_append_of_le_length (Nat.le_of_lt inside)]
        cases count with
        | zero => exact Or.inl rfl
        | succ cut => exact Or.inr ⟨c, cut, rfl, inside⟩
      · obtain ⟨before, after, shape, result⟩ :=
          take_encode text (count - (String.utf8EncodeChar c).length)
        refine ⟨c :: before, after, by rw [shape, List.cons_append], ?_⟩
        rw [encode_cons, List.take_append, List.take_of_length_le (Nat.le_of_not_lt inside),
          encode_cons]
        rcases result with whole | ⟨c', cut, isCut, within⟩
        · exact Or.inl (by rw [whole])
        · exact Or.inr ⟨c', cut, by rw [isCut, List.append_assoc], within⟩

/-- Of a text cut off behind some bytes, at most one character is replaced. -/
theorem length_lossy_take (text : List Char) (count : Nat) :
    (lossy ((encode text).take count)).length ≤ count + 2 := by
  obtain ⟨before, after, _, result⟩ := take_encode text count
  have height := List.length_take_le count (encode text)
  rcases result with whole | ⟨c, cut, isCut, within⟩
  · rw [whole] at height
    rw [whole, lossy_encode]
    omega
  · obtain ⟨lead, more, isBytes, _, part⟩ := scan_encoded c []
    rw [isBytes, List.length_cons] at within
    rw [isCut, isBytes, List.take_succ_cons] at height
    have isPart := part cut (by omega)
    have ends : (more.take cut).drop (cut + 1 - 1) = [] :=
      List.drop_eq_nil_of_le (List.length_take_le _ _)
    rw [isCut, isBytes, List.take_succ_cons, lossy_encode_append, lossy, isPart, ends, lossy,
      List.append_nil, if_neg Bool.false_ne_true]
    rw [List.length_append, List.length_cons, List.length_take] at height
    rw [List.length_append, replacement, List.length_cons, List.length_cons, List.length_cons,
      List.length_nil]
    omega

end Rayzor.Library.Utf8
