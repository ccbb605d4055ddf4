import Rayzor.Strings.CodePoints

/-!
Contract: the functions on code points all read one segmentation.
-/

namespace Rayzor.Strings

open Library

variable {b : List UInt8}

theorem width_of_ascii {list : List UInt8} (ascii : ∀ c, list.head? = some c → c < 0x80) :
    charWidth list 0 = 1 := by
  apply charWidth_of_none
  cases list with
  | nil => rfl
  | cons c rest => exact wanted_of_ascii (ascii c rfl)

theorem ones_of_isAscii {list : List UInt8} {n : Nat} (ascii : isAscii (list.take n) = true) :
    ∀ i < n, codePoints.width (list.drop i) = 1 := by
  intro i below
  apply width_of_ascii
  intro c found
  rw [List.head?_drop] at found
  have inTake : c ∈ list.take n := by
    apply List.mem_of_getElem? (i := i)
    rw [List.getElem?_take_of_lt below]
    exact found
  rw [isAscii, List.all_eq_true] at ascii
  exact of_decide_eq_true (ascii c inTake)

theorem drop_ne_nil {i : Nat} (inside : i < b.length) : b.drop i ≠ [] := by
  intro isNil
  rw [List.drop_eq_nil_iff] at isNil
  omega

theorem width_drop (b : List UInt8) (i : Nat) : codePoints.width (b.drop i) = charWidth b i :=
  (charWidth_drop b i).symm

theorem charCountFrom_eq (b : List UInt8) (i n : Nat) :
    charCountFrom b i n = n + codePoints.count (b.drop i) := by
  fun_induction charCountFrom b i n with
  | case1 i n inside ih =>
      rw [ih, codePoints.count_of_ne_nil (drop_ne_nil inside), List.drop_drop,
        width_drop]
      omega
  | case2 i n past =>
      rw [List.drop_of_length_le (Nat.le_of_not_lt past), codePoints.count_nil, Nat.add_zero]

theorem advanceCharsFrom_eq (b : List UInt8) (count i n : Nat) :
    advanceCharsFrom b count i n = i + codePoints.advance (count - n) (b.drop i) := by
  fun_induction advanceCharsFrom b count i n with
  | case1 i n more ih =>
      have step : count - n = count - (n + 1) + 1 := by omega
      rw [ih, step, codePoints.advance_succ (drop_ne_nil more.2), List.drop_drop,
        width_drop, Nat.add_assoc]
  | case2 i n done =>
      rcases Nat.lt_or_ge n count with before | all
      · have past : b.length ≤ i := by
          by_contra inside
          exact done ⟨before, Nat.lt_of_not_le inside⟩
        rw [List.drop_of_length_le past, codePoints.advance_nil, Nat.add_zero]
      · rw [Nat.sub_eq_zero_of_le all, codePoints.advance_zero, Nat.add_zero]

theorem byteToCharFrom_eq (b : List UInt8) (offset i n : Nat) (within : offset ≤ b.length) :
    byteToCharFrom b offset i n = n + codePoints.index (b.drop i) (offset - i) := by
  fun_induction byteToCharFrom b offset i n with
  | case1 i n before ih =>
      rw [ih,
        codePoints.index_of_ne_nil (drop_ne_nil (Nat.lt_of_lt_of_le before within)) (by omega),
        List.drop_drop, width_drop, Nat.sub_add_eq]
      omega
  | case2 i n past =>
      rw [Nat.sub_eq_zero_of_le (Nat.le_of_not_lt past), codePoints.index_zero, Nat.add_zero]

theorem continuations_full : ∀ {count : Nat} {list : List UInt8},
    Utf8.continuations count list = count →
      count ≤ list.length ∧ ∀ c ∈ list.take count, Utf8.isContinuation c = true
  | 0, list, _ => ⟨Nat.zero_le _, by rw [List.take_zero]; exact fun c inNil => nomatch inNil⟩
  | count + 1, [], full => nomatch full
  | count + 1, c :: list, full => by
      rw [Utf8.continuations] at full
      split_ifs at full with continues
      have rest := continuations_full (Nat.succ.inj full)
      refine ⟨Nat.succ_le_succ rest.1, ?_⟩
      intro c' inTake
      rw [List.take_succ_cons] at inTake
      rcases List.mem_cons.mp inTake with isFirst | inRest
      · rw [isFirst]
        exact continues
      · exact rest.2 c' inRest

theorem wanted_eq (lead : UInt8) :
    wanted lead = if Utf8.width lead.toNat ≤ 1 then none else some (Utf8.width lead.toNat) := by
  have checked := byte_forall (p := fun lead => decide (wanted lead =
    if Utf8.width lead.toNat ≤ 1 then none else some (Utf8.width lead.toNat)))
    (by decide +kernel) lead
  exact of_decide_eq_true checked

theorem continuation_mask {c : UInt8} (continues : Utf8.isContinuation c = true) :
    (c &&& 0xC0 == 0x80) = true := by
  have checked := byte_forall
    (p := fun c => !Utf8.isContinuation c || (c &&& 0xC0 == 0x80)) (by decide +kernel) c
  rwa [continues, Bool.not_true, Bool.false_or] at checked

/-- What follows a first byte is never the first byte of another character. -/
theorem isContinuation_of_secondFits {lead second : Nat} (fits : Utf8.secondFits lead second = true) :
    0x80 ≤ second ∧ second < 0xC0 := by
  rw [Utf8.secondFits, Bool.and_eq_true, decide_eq_true_eq, decide_eq_true_eq] at fits
  split_ifs at fits <;> omega

theorem charWidth_of_scan {lead : UInt8} {rest : List UInt8}
    (encodes : (Utf8.scan lead rest).2 = true) :
    charWidth (lead :: rest) 0 = (Utf8.scan lead rest).1 := by
  have asks := wanted_eq lead
  cases rest with
  | nil =>
      rw [Utf8.scan] at encodes ⊢
      rw [beq_iff_eq] at encodes
      rw [encodes, if_pos (Nat.le_refl 1)] at asks
      exact charWidth_of_none asks
  | cons second more =>
      rw [Utf8.scan] at encodes ⊢
      split_ifs at encodes ⊢ with single fits
      · rw [if_pos single] at asks
        exact charWidth_of_none asks
      · rw [if_neg single] at asks
        have full : Utf8.continuations (Utf8.width lead.toNat - 2) more =
            Utf8.width lead.toNat - 2 := by
          have total := beq_iff_eq.mp encodes
          omega
        obtain ⟨enough, continued⟩ := continuations_full full
        have bounds := isContinuation_of_secondFits fits
        have completed : Completed (lead :: second :: more) (Utf8.width lead.toNat) := by
          refine ⟨by rw [List.length_cons, List.length_cons]; omega, ?_⟩
          have shape : ((lead :: second :: more).drop 1).take (Utf8.width lead.toNat - 1) =
              second :: more.take (Utf8.width lead.toNat - 2) := by
            rw [List.drop_one, List.tail_cons,
              show Utf8.width lead.toNat - 1 = Utf8.width lead.toNat - 2 + 1 by omega,
              List.take_succ_cons]
          rw [shape]
          intro c inSecond
          apply continuation_mask
          rcases List.mem_cons.mp inSecond with isSecond | inMore
          · rw [isSecond, Utf8.isContinuation, Bool.and_eq_true, decide_eq_true_eq,
              decide_eq_true_eq, UInt8.le_iff_toNat_le, UInt8.lt_iff_toNat_lt]
            exact bounds
          · exact continued c inMore
        rw [(@charWidth_of_some (lead :: second :: more) _ asks).1 completed, full]
        omega

theorem pieces_of_characters : ∀ {b : List UInt8} {text : List (List UInt8)},
    Utf8.characters b = some text → codePoints.pieces b = text
  | [], text, encodes => by
      rw [Utf8.characters] at encodes
      rw [codePoints.pieces_nil]
      exact Option.some.inj encodes
  | lead :: rest, text, encodes => by
      rw [Utf8.characters] at encodes
      split_ifs at encodes with first
      obtain ⟨later, isLater, isText⟩ := Option.map_eq_some_iff.mp encodes
      have wide := charWidth_of_scan first
      have positive := charWidth_pos (lead :: rest) 0
      have dropped : (lead :: rest).drop (Utf8.scan lead rest).1 =
          rest.drop ((Utf8.scan lead rest).1 - 1) := by
        obtain ⟨more, isMore⟩ := Nat.exists_eq_succ_of_ne_zero
          (Nat.pos_iff_ne_zero.mp (wide ▸ positive))
        rw [isMore, List.drop_succ_cons, Nat.succ_sub_one]
      rw [codePoints.pieces_of_ne_nil (List.cons_ne_nil _ _), codePoints_width, wide, dropped,
        pieces_of_characters isLater]
      exact isText
  termination_by b => b.length
  decreasing_by simp only [List.length_drop, List.length_cons]; omega

theorem charCount_eq (b : List UInt8) : charCount b = codePoints.count b := by
  rw [charCount]
  split_ifs with ascii
  · have ones := ones_of_isAscii (n := b.length) (by rwa [List.take_length])
    rw [codePoints.count_of_ones b.length b (Nat.le_refl _) ones, List.drop_length,
      codePoints.count_nil, Nat.add_zero]
  · cases encodes : Utf8.characters b with
    | some text => rw [Segmentation.count, pieces_of_characters encodes]
    | none =>
        dsimp only
        rw [charCountFrom_eq, List.drop_zero, Nat.zero_add]

theorem advanceChars_eq (b : List UInt8) (start count : Nat) :
    advanceChars b start count =
      min start b.length + codePoints.advance count (b.drop (min start b.length)) := by
  rw [advanceChars]
  generalize isStart : min start b.length = i
  have within : i ≤ b.length := isStart ▸ Nat.min_le_right _ _
  split_ifs with ascii
  · have height : (b.drop i).length = b.length - i := List.length_drop
    have ones := ones_of_isAscii ascii
    rcases Nat.le_total count (b.length - i) with few | all
    · rw [min_eq_left few] at ones ⊢
      rw [codePoints.advance_of_ones count (b.drop i) (height ▸ few) ones]
    · rw [min_eq_right all] at ones ⊢
      have counted := codePoints.count_of_ones _ (b.drop i) (Nat.le_of_eq height.symm) ones
      rw [← height, List.drop_length, codePoints.count_nil, Nat.add_zero] at counted
      rw [codePoints.advance_of_count_le (by omega), height]
  · rw [advanceCharsFrom_eq, Nat.sub_zero]

theorem charToByte_eq (b : List UInt8) (index : Nat) :
    charToByte b index = codePoints.advance index b := by
  rw [charToByte, advanceChars_eq, Nat.zero_min, List.drop_zero, Nat.zero_add]

theorem byteToChar_eq (b : List UInt8) (offset : Nat) :
    byteToChar b offset = codePoints.index b (min offset b.length) := by
  rw [byteToChar]
  have within : min offset b.length ≤ b.length := Nat.min_le_right _ _
  split_ifs with ascii
  · exact (codePoints.index_of_ones _ b within (ones_of_isAscii ascii)).symm
  · rw [byteToCharFrom_eq b _ 0 0 within, List.drop_zero, Nat.zero_add, Nat.sub_zero]

end Rayzor.Strings
