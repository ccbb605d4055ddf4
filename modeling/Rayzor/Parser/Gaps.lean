import Rayzor.Parser.Lexer

/-!
Contract: what may stand between two tokens.
-/

namespace Rayzor.Parser

open Library Library.Text

variable (source : List UInt8)

/-- Two given characters stand at the position. -/
def AtMark (first second : Char) (pos : Nat) : Prop :=
  source[pos]? = some (byte first) ∧ source[pos + 1]? = some (byte second)

/-- Behind `stop` the block comment is over, when it is `depth` comments deep at
the position. -/
inductive Closes : Nat → Nat → Nat → Prop
  | opens {depth pos stop : Nat} : AtMark source '/' '*' pos →
      Closes (depth + 1) (pos + 2) stop → Closes depth pos stop
  | ends {pos : Nat} : AtMark source '*' '/' pos → Closes 1 pos (pos + 2)
  | inner {depth pos stop : Nat} : AtMark source '*' '/' pos → 0 < depth →
      Closes depth (pos + 2) stop → Closes (depth + 1) pos stop
  | passes {depth pos stop : Nat} : pos < source.length → ¬ AtMark source '/' '*' pos →
      ¬ AtMark source '*' '/' pos → Closes depth (pos + 1) stop → Closes depth pos stop

/-- The first line feed from the position on, or the end of the source. -/
def EndsLine (pos stop : Nat) : Prop :=
  pos ≤ stop ∧ stop ≤ source.length ∧
    (∀ index, pos ≤ index → index < stop → source[index]? ≠ some (byte '\n')) ∧
    (stop < source.length → source[stop]? = some (byte '\n'))

/-- A block comment starts at the position and never closes. -/
def OpenComment (pos : Nat) : Prop :=
  AtMark source '/' '*' pos ∧ ∀ stop, ¬ Closes source 1 (pos + 2) stop

/-- White space and comments. A block comment that never closes runs to the end. -/
inductive Gap : Nat → Nat → Prop
  | done (pos : Nat) : Gap pos pos
  | space {pos stop : Nat} : holdsAt source isSpaceByte pos = true → Gap (pos + 1) stop →
      Gap pos stop
  | line {pos next stop : Nat} : AtMark source '/' '/' pos → EndsLine source (pos + 2) next →
      Gap next stop → Gap pos stop
  | block {pos next stop : Nat} : AtMark source '/' '*' pos → Closes source 1 (pos + 2) next →
      Gap next stop → Gap pos stop
  | openBlock {pos : Nat} : OpenComment source pos → Gap pos source.length

/-- A block comment that never closes, of which the scan leaves the last byte, and
that is no white space. -/
structure Leaves (pos : Nat) : Prop where
  isOpen : OpenComment source pos
  left : skipBlockComment source (source.length + 1) 1 (pos + 2) = .ok (source.length - 1)
  inside : pos + 2 < source.length
  visible : holdsAt source isSpaceByte (source.length - 1) = false

variable {source}

theorem lt_length_of_getElem? {pos : Nat} {b : UInt8} (found : source[pos]? = some b) :
    pos < source.length :=
  (List.getElem?_eq_some_iff.mp found).1

variable (source) in
theorem byteAt_of_lt {pos : Nat} (inside : pos < source.length) :
    ∃ b, source[pos]? = some b ∧ byteAt source pos = .ok b := by
  have found := List.getElem?_eq_getElem inside
  exact ⟨_, found, by rw [byteAt, found]⟩

theorem getElem?_of_peekAt {pos : Nat} {b : UInt8} (peeked : peekAt source pos = b)
    (nonzero : b ≠ 0) : source[pos]? = some b := by
  rw [peekAt] at peeked
  cases found : source[pos]? with
  | none =>
      rw [found] at peeked
      exact absurd peeked.symm nonzero
  | some other =>
      rw [found] at peeked
      exact congrArg some peeked

theorem atMark_of_peekAt {first second : Char} {pos : Nat}
    (peeked : peekAt source pos = byte first ∧ peekAt source (pos + 1) = byte second)
    (firstSome : byte first ≠ 0) (secondSome : byte second ≠ 0) :
    AtMark source first second pos :=
  ⟨getElem?_of_peekAt peeked.1 firstSome, getElem?_of_peekAt peeked.2 secondSome⟩

theorem AtMark.inside {first second : Char} {pos : Nat} (marked : AtMark source first second pos) :
    pos + 1 < source.length :=
  lt_length_of_getElem? marked.2

theorem holdsAt_iff {test : UInt8 → Bool} {pos : Nat} :
    holdsAt source test pos = true ↔ ∃ b, source[pos]? = some b ∧ test b = true := by
  rw [holdsAt]
  cases source[pos]? <;> simp

theorem holdsAt_inside {test : UInt8 → Bool} {pos : Nat}
    (holds : holdsAt source test pos = true) : pos < source.length := by
  obtain ⟨b, found, _⟩ := holdsAt_iff.mp holds
  exact lt_length_of_getElem? found

variable (source) in
/-- A scan stops inside the source, behind bytes that pass the test, before one
that does not. -/
theorem skipWhile_spec (test : UInt8 → Bool) {pos : Nat} (inside : pos ≤ source.length) :
    pos ≤ skipWhile source test pos ∧ skipWhile source test pos ≤ source.length ∧
      (∀ index, pos ≤ index → index < skipWhile source test pos →
        holdsAt source test index = true) ∧
      holdsAt source test (skipWhile source test pos) = false := by
  obtain ⟨passes, behind⟩ := getElem?_takeWhile test (source.drop pos)
  have shorter := (List.takeWhile_sublist (l := source.drop pos) test).length_le
  rw [List.length_drop] at shorter
  refine ⟨Nat.le_add_right _ _, by rw [skipWhile]; omega, ?_, ?_⟩
  · intro index after before
    rw [skipWhile] at before
    obtain ⟨b, found, holds⟩ := passes (index - pos) (by omega)
    rw [List.getElem?_drop, show pos + (index - pos) = index by omega] at found
    exact holdsAt_iff.mpr ⟨b, found, holds⟩
  · rw [Bool.eq_false_iff]
    intro holds
    obtain ⟨b, found, isPassed⟩ := holdsAt_iff.mp holds
    rw [skipWhile, ← List.getElem?_drop] at found
    rw [behind b found] at isPassed
    exact Bool.false_ne_true isPassed

theorem AtMark.apart {pos : Nat} (opening : AtMark source '/' '*' pos) :
    ¬ AtMark source '*' '/' pos := fun closing =>
  absurd (Option.some.inj (opening.1.symm.trans closing.1)) (by decide)

namespace Closes

theorem bounds {depth pos stop : Nat} (closes : Closes source depth pos stop) :
    pos + 2 ≤ stop ∧ stop ≤ source.length := by
  induction closes with
  | opens marked _ later => omega
  | ends marked =>
      have inside := marked.inside
      omega
  | inner marked _ _ later => omega
  | passes _ _ _ _ later => omega

theorem of_opening {depth pos stop : Nat} (closes : Closes source depth pos stop)
    (opening : AtMark source '/' '*' pos) : Closes source (depth + 1) (pos + 2) stop := by
  cases closes with
  | opens _ later => exact later
  | ends closing => exact absurd closing opening.apart
  | inner closing => exact absurd closing opening.apart
  | passes _ unmarked => exact absurd opening unmarked

theorem of_closing {depth pos stop : Nat} (closes : Closes source (depth + 1) pos stop)
    (closing : AtMark source '*' '/' pos) :
    (depth = 0 ∧ stop = pos + 2) ∨ (0 < depth ∧ Closes source depth (pos + 2) stop) := by
  cases closes with
  | opens opening => exact absurd closing opening.apart
  | ends => exact Or.inl ⟨rfl, rfl⟩
  | inner _ positive later => exact Or.inr ⟨positive, later⟩
  | passes _ _ unmarked => exact absurd closing unmarked

theorem of_unmarked {depth pos stop : Nat} (closes : Closes source depth pos stop)
    (noOpening : ¬ AtMark source '/' '*' pos) (noClosing : ¬ AtMark source '*' '/' pos) :
    Closes source depth (pos + 1) stop := by
  cases closes with
  | opens opening => exact absurd opening noOpening
  | ends closing => exact absurd closing noClosing
  | inner closing => exact absurd closing noClosing
  | passes _ _ _ later => exact later

theorem unique {depth pos stop : Nat} (closes : Closes source depth pos stop) :
    ∀ {stop' : Nat}, Closes source depth pos stop' → stop = stop' := by
  induction closes with
  | opens opening _ later => exact fun other => later (other.of_opening opening)
  | ends closing =>
      intro stop' other
      rcases other.of_closing closing with ⟨_, same⟩ | ⟨positive, _⟩
      · exact same.symm
      · exact absurd positive (Nat.lt_irrefl 0)
  | inner closing positive _ later =>
      intro stop' other
      rcases other.of_closing closing with ⟨zero, _⟩ | ⟨_, deeper⟩
      · exact absurd zero (Nat.pos_iff_ne_zero.mp positive)
      · exact later deeper
  | passes _ noOpening noClosing _ later =>
      exact fun other => later (other.of_unmarked noOpening noClosing)

end Closes

variable (source) in
/-- Where the scan of a block comment stops: behind a comment that closes, else at
the last byte of the source or behind it. -/
def ScansComment (depth pos stop : Nat) : Prop :=
  pos ≤ stop ∧ stop ≤ source.length ∧
    (Closes source depth pos stop ∨
      (∀ next, ¬ Closes source depth pos next) ∧ source.length ≤ stop + 1)

variable (source) in
theorem skipBlockComment_spec : ∀ (fuel depth pos : Nat), 0 < depth → pos ≤ source.length →
    source.length - pos < fuel →
    ∃ stop, skipBlockComment source fuel depth pos = .ok stop ∧
      ScansComment source depth pos stop
  | 0, _, _, _, _, enough => absurd enough (Nat.not_lt_zero _)
  | fuel + 1, depth, pos, positive, inside, enough => by
      rw [skipBlockComment]
      by_cases more : pos + 1 < source.length
      · rw [if_pos ⟨more, positive⟩]
        obtain ⟨b, isByte, read⟩ := byteAt_of_lt source (Nat.lt_of_succ_lt more)
        obtain ⟨next, isNext, readNext⟩ := byteAt_of_lt source more
        rw [read, readNext]
        show ∃ stop, (if b = byte '/' ∧ next = byte '*' then _ else _) = _ ∧ _
        have marked : ∀ first second : Char, AtMark source first second pos ↔
            b = byte first ∧ next = byte second := by
          intro first second
          rw [AtMark, isByte, isNext, Option.some.injEq, Option.some.injEq]
        split_ifs with opening closing
        · have isOpening := (marked '/' '*').mpr opening
          obtain ⟨stop, scanned, after, before, result⟩ :=
            skipBlockComment_spec fuel (depth + 1) (pos + 2) (Nat.succ_pos _) more (by omega)
          refine ⟨stop, scanned, by omega, before, ?_⟩
          rcases result with closes | ⟨never, short⟩
          · exact Or.inl (Closes.opens isOpening closes)
          · exact Or.inr ⟨fun next closes => never next (closes.of_opening isOpening), short⟩
        · have isClosing := (marked '*' '/').mpr closing
          obtain ⟨depth, rfl⟩ : ∃ smaller, depth = smaller + 1 := ⟨depth - 1, by omega⟩
          rw [Nat.add_sub_cancel]
          by_cases last : depth = 0
          · refine ⟨pos + 2, ?_, by omega, more, ?_⟩
            · obtain ⟨fuel, rfl⟩ : ∃ smaller, fuel = smaller + 1 := ⟨fuel - 1, by omega⟩
              rw [last, skipBlockComment, if_neg (by omega)]
            · rw [last]
              exact Or.inl (Closes.ends isClosing)
          · have deeper : 0 < depth := Nat.pos_of_ne_zero last
            obtain ⟨stop, scanned, after, before, result⟩ :=
              skipBlockComment_spec fuel depth (pos + 2) deeper more (by omega)
            refine ⟨stop, scanned, by omega, before, ?_⟩
            rcases result with closes | ⟨never, short⟩
            · exact Or.inl (Closes.inner isClosing deeper closes)
            · refine Or.inr ⟨fun next closes => ?_, short⟩
              rcases closes.of_closing isClosing with ⟨zero, _⟩ | ⟨_, later⟩
              · exact last zero
              · exact never next later
        · have noOpening : ¬ AtMark source '/' '*' pos := fun isOpening =>
            opening ((marked '/' '*').mp isOpening)
          have noClosing : ¬ AtMark source '*' '/' pos := fun isClosing =>
            closing ((marked '*' '/').mp isClosing)
          obtain ⟨stop, scanned, after, before, result⟩ :=
            skipBlockComment_spec fuel depth (pos + 1) positive (by omega) (by omega)
          refine ⟨stop, scanned, by omega, before, ?_⟩
          rcases result with closes | ⟨never, short⟩
          · exact Or.inl (Closes.passes (by omega) noOpening noClosing closes)
          · exact Or.inr ⟨fun next closes => never next (closes.of_unmarked noOpening noClosing),
              short⟩
      · rw [if_neg fun both => more both.1]
        refine ⟨pos, rfl, Nat.le_refl _, inside, Or.inr ⟨fun next closes => ?_, by omega⟩⟩
        have bounds := closes.bounds
        omega

namespace Gap

theorem le {pos stop : Nat} (gap : Gap source pos stop) : pos ≤ stop := by
  induction gap with
  | done => exact Nat.le_refl _
  | space _ _ later => omega
  | line _ ends _ later =>
      have after := ends.1
      omega
  | block _ closes _ later =>
      have bounds := closes.bounds
      omega
  | openBlock isOpen =>
      have inside := isOpen.1.inside
      omega

theorem trans {pos next stop : Nat} (first : Gap source pos next) (later : Gap source next stop)
    (proper : next < source.length) : Gap source pos stop := by
  induction first with
  | done => exact later
  | space isSpace _ rest => exact Gap.space isSpace (rest later proper)
  | line marked ends _ rest => exact Gap.line marked ends (rest later proper)
  | block marked closes _ rest => exact Gap.block marked closes (rest later proper)
  | openBlock => exact absurd proper (Nat.lt_irrefl _)

end Gap

theorem space_unmarked {pos : Nat} {second : Char} (isSpace : holdsAt source isSpaceByte pos = true) :
    ¬ AtMark source '/' second pos := by
  intro marked
  obtain ⟨b, found, holds⟩ := holdsAt_iff.mp isSpace
  rw [marked.1] at found
  cases found
  exact absurd holds (by decide)

theorem line_unmarked {pos : Nat} (marked : AtMark source '/' '/' pos) :
    ¬ AtMark source '/' '*' pos := fun opening =>
  absurd (Option.some.inj (marked.2.symm.trans opening.2)) (by decide)

theorem EndsLine.unique {pos stop stop' : Nat} (ends : EndsLine source pos stop)
    (ends' : EndsLine source pos stop') : stop = stop' := by
  obtain ⟨after, inside, clear, broken⟩ := ends
  obtain ⟨after', inside', clear', broken'⟩ := ends'
  rcases Nat.lt_trichotomy stop stop' with before | same | behind
  · exact absurd (broken (by omega)) (clear' stop after before)
  · exact same
  · exact absurd (broken' (by omega)) (clear stop' after' behind)

/-- A gap is read one way only: of two that start together, the longer goes on
where the shorter ends. -/
theorem Gap.continues {pos next : Nat} (first : Gap source pos next) :
    ∀ {stop : Nat}, Gap source pos stop → next < stop → Gap source next stop := by
  induction first with
  | done => exact fun other _ => other
  | @space pos next isSpace first later =>
      intro stop other further
      cases other with
      | done =>
          have after := first.le
          omega
      | space _ rest => exact later rest further
      | line marked => exact absurd marked (space_unmarked isSpace)
      | block marked => exact absurd marked (space_unmarked isSpace)
      | openBlock isOpen => exact absurd isOpen.1 (space_unmarked isSpace)
  | @line pos lineEnd next marked ends first later =>
      intro stop other further
      cases other with
      | done =>
          have after := first.le
          have inner := ends.1
          omega
      | space isSpace => exact absurd marked (space_unmarked isSpace)
      | line _ ends' rest => exact later (ends.unique ends' ▸ rest) further
      | block marked' => exact absurd marked' (line_unmarked marked)
      | openBlock isOpen => exact absurd isOpen.1 (line_unmarked marked)
  | @block pos blockEnd next marked closes first later =>
      intro stop other further
      cases other with
      | done =>
          have after := first.le
          have bounds := closes.bounds
          omega
      | space isSpace => exact absurd marked (space_unmarked isSpace)
      | line marked' => exact absurd marked (line_unmarked marked')
      | block _ closes' rest => exact later (closes.unique closes' ▸ rest) further
      | openBlock isOpen => exact absurd closes (isOpen.2 _)
  | @openBlock pos isOpen =>
      intro stop other further
      have inside := isOpen.1.inside
      cases other with
      | done => omega
      | space isSpace => exact absurd isOpen.1 (space_unmarked isSpace)
      | line marked' => exact absurd isOpen.1 (line_unmarked marked')
      | block _ closes => exact absurd closes (isOpen.2 _)
      | openBlock => exact absurd further (Nat.lt_irrefl _)

theorem Gap.of_open {pos stop : Nat} (gap : Gap source pos stop) (isOpen : OpenComment source pos)
    (further : pos < stop) : stop = source.length := by
  cases gap with
  | done => exact absurd further (Nat.lt_irrefl _)
  | space isSpace => exact absurd isOpen.1 (space_unmarked isSpace)
  | line marked => exact absurd isOpen.1 (line_unmarked marked)
  | block _ closes => exact absurd closes (isOpen.2 _)
  | openBlock => rfl

theorem gap_of_spaces : ∀ (count pos : Nat),
    (∀ index, pos ≤ index → index < pos + count → holdsAt source isSpaceByte index = true) →
    Gap source pos (pos + count)
  | 0, pos, _ => Gap.done pos
  | count + 1, pos, spaces => by
      have later := gap_of_spaces count (pos + 1) fun index after before =>
        spaces index (by omega) (by omega)
      rw [show pos + 1 + count = pos + (count + 1) by omega] at later
      exact Gap.space (spaces pos (Nat.le_refl _) (by omega)) later

variable (source) in
theorem gap_skipSpaces {pos : Nat} (inside : pos ≤ source.length) :
    Gap source pos (skipWhile source isSpaceByte pos) := by
  obtain ⟨_, _, passes, _⟩ := skipWhile_spec source isSpaceByte inside
  exact gap_of_spaces _ pos passes

variable (source) in
theorem endsLine_skipWhile {pos : Nat} (inside : pos ≤ source.length) :
    EndsLine source pos (skipWhile source (· != byte '\n') pos) := by
  obtain ⟨after, before, passes, stops⟩ := skipWhile_spec source (· != byte '\n') inside
  refine ⟨after, before, fun index low high found => ?_, fun short => ?_⟩
  · obtain ⟨b, isByte, other⟩ := holdsAt_iff.mp (passes index low high)
    rw [found] at isByte
    cases isByte
    exact absurd other (by decide)
  · obtain ⟨b, isByte, _⟩ := byteAt_of_lt source short
    rw [isByte]
    rw [holdsAt, isByte, Option.any_some, bne_eq_false_iff_eq] at stops
    rw [stops]

theorem peekAt_beyond {pos : Nat} (beyond : source.length ≤ pos) : peekAt source pos = 0 := by
  rw [peekAt, List.getElem?_eq_none beyond]
  rfl

theorem skipWhile_of_not {test : UInt8 → Bool} {pos : Nat} (fails : holdsAt source test pos = false)
    (inside : pos ≤ source.length) : skipWhile source test pos = pos := by
  obtain ⟨after, _, passes, _⟩ := skipWhile_spec source test inside
  by_contra moved
  have holds := passes pos (Nat.le_refl _) (by omega)
  rw [fails] at holds
  exact Bool.false_ne_true holds

theorem skip_atEnd (fuel : Nat) :
    skipWhitespaceAndComments source (fuel + 1) source.length = .ok source.length := by
  obtain ⟨after, before, _, _⟩ := skipWhile_spec source isSpaceByte
    (Nat.le_refl source.length)
  have same : skipWhile source isSpaceByte source.length = source.length :=
    Nat.le_antisymm before after
  rw [skipWhitespaceAndComments]
  simp only [same, Nat.le_refl, if_true]

/-- At the last byte the scan stops, unless it is white space. -/
theorem skip_atLast {fuel pos : Nat} (last : pos + 1 = source.length) :
    skipWhitespaceAndComments source (fuel + 1) pos =
      .ok (if holdsAt source isSpaceByte pos then source.length else pos) := by
  have inside : pos ≤ source.length := by omega
  rw [skipWhitespaceAndComments]
  by_cases isSpace : holdsAt source isSpaceByte pos = true
  · obtain ⟨after, before, _, stops⟩ := skipWhile_spec source isSpaceByte inside
    have moved : skipWhile source isSpaceByte pos ≠ pos := by
      intro same
      rw [same, isSpace] at stops
      exact Bool.false_ne_true stops.symm
    have atEnd : skipWhile source isSpaceByte pos = source.length := by omega
    simp only [atEnd, Nat.le_refl, if_true, isSpace]
  · rw [Bool.not_eq_true] at isSpace
    have none : peekAt source (pos + 1) = 0 := peekAt_beyond (Nat.le_of_eq last.symm)
    have noSlash : ¬ (0 : UInt8) = byte '/' := by decide
    have noStar : ¬ (0 : UInt8) = byte '*' := by decide
    have before : ¬ source.length ≤ pos := by omega
    simp only [skipWhile_of_not isSpace inside, before, none, noSlash, noStar, and_false, if_false,
      isSpace, Bool.false_eq_true]

variable (source) in
/-- No gap from the position leads to a comment of which the scan leaves a byte. -/
def LeavesNothing (pos : Nat) : Prop := ∀ opening, Gap source pos opening → ¬ Leaves source opening

theorem leavesNothing_space {pos : Nat} (isSpace : holdsAt source isSpaceByte pos = true)
    (later : LeavesNothing source (pos + 1)) :
    LeavesNothing source pos := by
  intro opening gap leaves
  cases gap with
  | done => exact space_unmarked isSpace leaves.isOpen.1
  | space _ rest => exact later opening rest leaves
  | line marked => exact space_unmarked isSpace marked
  | block marked => exact space_unmarked isSpace marked
  | openBlock isOpen => exact space_unmarked isSpace isOpen.1

theorem leavesNothing_spaces : ∀ (count pos : Nat),
    (∀ index, pos ≤ index → index < pos + count → holdsAt source isSpaceByte index = true) →
    LeavesNothing source (pos + count) → LeavesNothing source pos
  | 0, _, _, later => later
  | count + 1, pos, spaces, later => by
      apply leavesNothing_space (spaces pos (Nat.le_refl _) (by omega))
      apply leavesNothing_spaces count (pos + 1) fun index after before =>
        spaces index (by omega) (by omega)
      rwa [show pos + 1 + count = pos + (count + 1) by omega]

theorem leavesNothing_line {pos next : Nat} (marked : AtMark source '/' '/' pos)
    (ends : EndsLine source (pos + 2) next) (later : LeavesNothing source next) :
    LeavesNothing source pos := by
  intro opening gap leaves
  cases gap with
  | done => exact line_unmarked marked leaves.isOpen.1
  | space isSpace => exact space_unmarked isSpace marked
  | line _ ends' rest => exact later opening (ends.unique ends' ▸ rest) leaves
  | block marked' => exact line_unmarked marked marked'
  | openBlock isOpen => exact line_unmarked marked isOpen.1

theorem leavesNothing_block {pos next : Nat} (marked : AtMark source '/' '*' pos)
    (closes : Closes source 1 (pos + 2) next) (later : LeavesNothing source next) :
    LeavesNothing source pos := by
  intro opening gap leaves
  cases gap with
  | done => exact leaves.isOpen.2 next closes
  | space isSpace => exact space_unmarked isSpace marked
  | line marked' => exact line_unmarked marked' marked
  | block _ closes' rest => exact later opening (closes.unique closes' ▸ rest) leaves
  | openBlock isOpen => exact isOpen.2 next closes

theorem leavesNothing_open {pos : Nat} (isOpen : OpenComment source pos)
    (nothing : ¬ Leaves source pos) : LeavesNothing source pos := by
  intro opening gap leaves
  have inside := leaves.isOpen.1.inside
  rcases Nat.eq_or_lt_of_le gap.le with same | further
  · exact nothing (same ▸ leaves)
  · have atEnd := gap.of_open isOpen further
    omega

theorem leavesNothing_end : LeavesNothing source source.length := by
  intro opening gap leaves
  have after := gap.le
  have inside := leaves.isOpen.1.inside
  omega

theorem leavesNothing_token {pos : Nat} (noSpace : holdsAt source isSpaceByte pos = false)
    (noLine : ¬ AtMark source '/' '/' pos) (noBlock : ¬ AtMark source '/' '*' pos) :
    LeavesNothing source pos := by
  intro opening gap leaves
  cases gap with
  | done => exact noBlock leaves.isOpen.1
  | space isSpace => exact Bool.false_ne_true (noSpace.symm.trans isSpace)
  | line marked => exact noLine marked
  | block marked => exact noBlock marked
  | openBlock isOpen => exact noBlock isOpen.1

variable (source) in
/-- The scan ends behind a gap, or at the last byte of an open comment. -/
def SkipsTo (pos stop : Nat) : Prop :=
  pos ≤ stop ∧ stop ≤ source.length ∧
    ((Gap source pos stop ∧ LeavesNothing source pos) ∨
      ∃ opening, Gap source pos opening ∧ Leaves source opening ∧ stop + 1 = source.length)

theorem peekAt_of_atMark {first second : Char} {pos : Nat} (marked : AtMark source first second pos) :
    peekAt source pos = byte first ∧ peekAt source (pos + 1) = byte second := by
  rw [peekAt, peekAt, marked.1, marked.2]
  exact ⟨rfl, rfl⟩

variable (source) in
theorem skipWhitespaceAndComments_spec : ∀ (fuel pos : Nat), pos ≤ source.length →
    source.length - pos < fuel →
    ∃ stop, skipWhitespaceAndComments source fuel pos = .ok stop ∧
      SkipsTo source pos stop
  | 0, _, _, enough => absurd enough (Nat.not_lt_zero _)
  | fuel + 1, pos, inside, enough => by
      rw [skipWhitespaceAndComments]
      obtain ⟨after, before, passes, stops⟩ :=
        skipWhile_spec source isSpaceByte inside
      have spaces := gap_skipSpaces source inside
      have nothing : LeavesNothing source (skipWhile source isSpaceByte pos) →
          LeavesNothing source pos := fun later =>
        leavesNothing_spaces _ pos passes later
      generalize skipWhile source isSpaceByte pos = start at spaces after before stops nothing ⊢
      by_cases atEnd : source.length ≤ start
      · rw [if_pos atEnd]
        have isEnd : start = source.length := by omega
        exact ⟨start, rfl, after, before, Or.inl ⟨spaces, nothing (isEnd ▸ leavesNothing_end)⟩⟩
      have proper : start < source.length := Nat.lt_of_not_le atEnd
      -- What is skipped from here on is skipped behind the spaces too.
      have behind : ∀ {stop : Nat}, SkipsTo source start stop →
          SkipsTo source pos stop := by
        intro stop skips
        obtain ⟨later, bounded, result⟩ := skips
        refine ⟨by omega, bounded, ?_⟩
        rcases result with ⟨gap, none⟩ | ⟨opening, gap, leaves, last⟩
        · exact Or.inl ⟨spaces.trans gap proper, nothing none⟩
        · exact Or.inr ⟨opening, spaces.trans gap proper, leaves, last⟩
      rw [if_neg atEnd]
      by_cases lineComment : peekAt source start = byte '/' ∧ peekAt source (start + 1) = byte '/'
      · rw [if_pos lineComment]
        have marked := atMark_of_peekAt lineComment (by decide) (by decide)
        have within := marked.inside
        have ends := @endsLine_skipWhile source (start + 2) within
        have further := ends.1
        obtain ⟨stop, scanned, later, bounded, result⟩ :=
          skipWhitespaceAndComments_spec fuel _ ends.2.1 (by omega)
        refine ⟨stop, scanned, behind ⟨by omega, bounded, ?_⟩⟩
        rcases result with ⟨gap, none⟩ | ⟨opening, gap, leaves, last⟩
        · exact Or.inl ⟨Gap.line marked ends gap, leavesNothing_line marked ends none⟩
        · exact Or.inr ⟨opening, Gap.line marked ends gap, leaves, last⟩
      rw [if_neg lineComment]
      by_cases blockComment : peekAt source start = byte '/' ∧ peekAt source (start + 1) = byte '*'
      · rw [if_pos blockComment]
        have marked := atMark_of_peekAt blockComment (by decide) (by decide)
        have within := marked.inside
        obtain ⟨next, scanned, further, bounded, result⟩ :=
          skipBlockComment_spec source (source.length + 1) 1 (start + 2)
            Nat.one_pos within (by omega)
        rw [scanned]
        show ∃ stop, skipWhitespaceAndComments source fuel next = .ok stop ∧ _
        rcases result with closes | ⟨never, short⟩
        · obtain ⟨stop, skipped, later, atMost, result⟩ :=
            skipWhitespaceAndComments_spec fuel next bounded (by omega)
          refine ⟨stop, skipped, behind ⟨by omega, atMost, ?_⟩⟩
          rcases result with ⟨gap, none⟩ | ⟨opening, gap, leaves, last⟩
          · exact Or.inl ⟨Gap.block marked closes gap, leavesNothing_block marked closes none⟩
          · exact Or.inr ⟨opening, Gap.block marked closes gap, leaves, last⟩
        · have isOpen : OpenComment source start := ⟨marked, never⟩
          obtain ⟨fuel, rfl⟩ : ∃ smaller, fuel = smaller + 1 := ⟨fuel - 1, by omega⟩
          have whole : ¬ Leaves source start → SkipsTo source pos source.length :=
            fun none => behind ⟨by omega, Nat.le_refl _,
              Or.inl ⟨Gap.openBlock isOpen, leavesNothing_open isOpen none⟩⟩
          by_cases reached : next = source.length
          · rw [reached]
            refine ⟨source.length, skip_atEnd fuel, whole fun leaves => ?_⟩
            have same := scanned.symm.trans leaves.left
            have inner := leaves.inside
            injection same with same
            omega
          · have last : next + 1 = source.length := by omega
            have isLast : next = source.length - 1 := by omega
            rw [skip_atLast last]
            by_cases isSpace : holdsAt source isSpaceByte next = true
            · rw [if_pos isSpace]
              refine ⟨source.length, rfl, whole fun leaves => ?_⟩
              have hidden := leaves.visible
              rw [← isLast, isSpace] at hidden
              exact Bool.false_ne_true hidden.symm
            · rw [if_neg isSpace]
              refine ⟨next, rfl, by omega, bounded, Or.inr ⟨start, spaces, ?_, last⟩⟩
              exact ⟨isOpen, isLast ▸ scanned, by omega,
                isLast ▸ Bool.eq_false_iff.mpr isSpace⟩
      · rw [if_neg blockComment]
        have none := leavesNothing_token stops (fun marked => lineComment (peekAt_of_atMark marked))
          fun marked => blockComment (peekAt_of_atMark marked)
        exact ⟨start, rfl, after, before, Or.inl ⟨spaces, nothing none⟩⟩

end Rayzor.Parser
