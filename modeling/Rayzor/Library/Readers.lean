import Mathlib

/-!
Contract: reading values off a list from a position on.

Owns: readers, what a reader reads, where it comes to a fault, and how both go
through the ways to put readers together; numbers of a width, lowest byte first.
-/

namespace Rayzor.Library

/-- A reader goes on from a position, or stops. -/
abbrev Reader (ε α : Type) := StateT Nat (Except ε) α

namespace Reader

variable {β ε α γ : Type}

def IsFault (fault : ε → Prop) (outcome : Except ε α) : Prop :=
  ∃ stop, outcome = .error stop ∧ fault stop

/-- Read a number of values one behind the other. -/
def many (reader : Reader ε α) : Nat → Reader ε (List α)
  | 0 => pure []
  | count + 1 => do
      let value ← reader
      let values ← many reader count
      pure (value :: values)

/-- The values a reader returns are those laid out at the position, unless it comes to a fault,
which it does exactly where what is left of the list is faulty. -/
structure Reads (input : List β) (fault : ε → Prop) (reader : Reader ε α)
    (laid : α → List β → Prop) (faulty : List β → Prop) : Prop where
  sound : ∀ pos ≤ input.length, ∀ value pos', reader pos = .ok (value, pos') →
    ∃ part rest, input.drop pos = part ++ rest ∧ pos' = pos + part.length ∧ laid value part
  complete : ∀ pos ≤ input.length, ∀ value part rest, input.drop pos = part ++ rest →
    laid value part → reader pos = .ok (value, pos + part.length) ∨ IsFault fault (reader pos)
  faults : ∀ pos ≤ input.length, IsFault fault (reader pos) ↔ faulty (input.drop pos)

variable {input : List β} {fault : ε → Prop} {pos pos' : Nat}

theorem position_of_part {part rest : List β} (inside : pos ≤ input.length)
    (split : input.drop pos = part ++ rest) :
    pos + part.length ≤ input.length ∧ input.drop (pos + part.length) = rest := by
  have lengths := congrArg List.length split
  rw [List.length_drop, List.length_append] at lengths
  refine ⟨by omega, ?_⟩
  rw [← List.drop_drop, split, List.drop_left]

theorem not_isFault_ok {result : α} : ¬IsFault fault (.ok result : Except ε α) := by
  rintro ⟨stop, impossible, -⟩
  cases impossible

theorem bind_of_ok {reader : Reader ε α} {next : α → Reader ε γ} {value : α}
    (read : reader pos = .ok (value, pos')) : (reader >>= next) pos = next value pos' := by
  simp only [bind, StateT.bind, read, Except.bind]

theorem bind_of_error {reader : Reader ε α} {next : α → Reader ε γ} {stop : ε}
    (stopped : reader pos = .error stop) : (reader >>= next) pos = .error stop := by
  simp only [bind, StateT.bind, stopped, Except.bind]

/-- One layout behind another. -/
def Then (laid : α → List β → Prop) (laid' : α → γ → List β → Prop) (value : γ)
    (part : List β) : Prop :=
  ∃ first front back, part = front ++ back ∧ laid first front ∧ laid' first value back

/-- The first reader comes to a fault, or the second does behind what the first one reads. -/
def FaultyThen (faulty : List β → Prop) (laid : α → List β → Prop)
    (faulty' : α → List β → Prop) (rest : List β) : Prop :=
  faulty rest ∨ ∃ first front back, rest = front ++ back ∧ laid first front ∧ faulty' first back

variable {laid : α → List β → Prop} {faulty : List β → Prop} {reader : Reader ε α}

theorem Reads.congr (reads : Reads input fault reader laid faulty) {laid' : α → List β → Prop}
    {faulty' : List β → Prop} (same : ∀ value part, laid value part ↔ laid' value part)
    (same' : ∀ rest, faulty rest ↔ faulty' rest) : Reads input fault reader laid' faulty' where
  sound pos inside value pos' read := by
    obtain ⟨part, rest, split, position, isLaid⟩ := reads.sound pos inside value pos' read
    exact ⟨part, rest, split, position, (same value part).mp isLaid⟩
  complete pos inside value part rest split isLaid :=
    reads.complete pos inside value part rest split ((same value part).mpr isLaid)
  faults pos inside := (reads.faults pos inside).trans (same' _)

theorem reads_pure (value : α) : Reads input fault (pure value)
    (fun value' part => value' = value ∧ part = []) fun _ => False where
  sound pos _ value' pos' read := by
    cases read
    exact ⟨[], input.drop pos, rfl, rfl, rfl, rfl⟩
  complete pos _ value' part _ _ isLaid := by
    obtain ⟨rfl, rfl⟩ := isLaid
    exact Or.inl rfl
  faults pos _ := iff_of_false not_isFault_ok id

theorem reads_throw {stop : ε} (notFault : ¬fault stop) :
    Reads input fault (throw stop : Reader ε α) (fun _ _ => False) fun _ => False where
  sound pos _ value' pos' read := by cases read
  complete pos _ value' part _ _ isLaid := isLaid.elim
  faults pos _ := by
    refine iff_of_false ?_ id
    rintro ⟨stop', same, isFault⟩
    cases same
    exact notFault isFault

theorem reads_bind {next : α → Reader ε γ} {laid' : α → γ → List β → Prop}
    {faulty' : α → List β → Prop} (reads : Reads input fault reader laid faulty)
    (readsNext : ∀ value, Reads input fault (next value) (laid' value) (faulty' value)) :
    Reads input fault (reader >>= next) (Then laid laid') (FaultyThen faulty laid faulty') where
  sound pos inside value pos' read := by
    cases first : reader pos with
    | error stop =>
        rw [bind_of_error first] at read
        cases read
    | ok result =>
        rw [bind_of_ok first] at read
        obtain ⟨front, rest, split, position, isLaid⟩ :=
          reads.sound pos inside result.1 result.2 first
        obtain ⟨inside', isRest⟩ := position_of_part inside split
        rw [← position] at inside' isRest
        obtain ⟨back, rest', split', position', isLaid'⟩ :=
          (readsNext result.1).sound result.2 inside' value pos' read
        refine ⟨front ++ back, rest', ?_, ?_, result.1, front, back, rfl, isLaid, isLaid'⟩
        · rw [split, List.append_assoc, ← split', isRest]
        · rw [position', position, List.length_append, Nat.add_assoc]
  complete pos inside value part rest split isLaid := by
    obtain ⟨first, front, back, rfl, isFirst, isNext⟩ := isLaid
    rw [List.append_assoc] at split
    rcases reads.complete pos inside first front _ split isFirst with read | ⟨stop, stopped, isFault⟩
    · obtain ⟨inside', isRest⟩ := position_of_part inside split
      rw [bind_of_ok read, List.length_append, ← Nat.add_assoc]
      exact (readsNext first).complete _ inside' value back rest isRest isNext
    · exact Or.inr ⟨stop, bind_of_error stopped, isFault⟩
  faults pos inside := by
    cases first : reader pos with
    | error stop =>
        have stopped : IsFault fault ((reader >>= next) pos) ↔ IsFault fault (reader pos) := by
          unfold IsFault
          rw [bind_of_error first, first]
          constructor
          · rintro ⟨other, same, isFault⟩
            cases same
            exact ⟨_, rfl, isFault⟩
          · rintro ⟨other, same, isFault⟩
            cases same
            exact ⟨_, rfl, isFault⟩
        rw [stopped, reads.faults pos inside]
        refine ⟨Or.inl, fun either => either.elim id ?_⟩
        rintro ⟨other, front, back, split, isLaid, -⟩
        rcases reads.complete pos inside other front back split isLaid with read | isFault
        · rw [first] at read
          cases read
        · exact (reads.faults pos inside).mp isFault
    | ok result =>
        have notFaulty : ¬faulty (input.drop pos) := by
          rw [← reads.faults pos inside, first]
          exact not_isFault_ok
        obtain ⟨front, rest, split, position, isLaid⟩ :=
          reads.sound pos inside result.1 result.2 first
        obtain ⟨inside', isRest⟩ := position_of_part inside split
        rw [bind_of_ok first, position, (readsNext result.1).faults _ inside', isRest]
        constructor
        · exact fun isFaulty => Or.inr ⟨result.1, front, rest, split, isLaid, isFaulty⟩
        · rintro (isFaulty | ⟨other, front', back, split', isLaid', isFaulty⟩)
          · exact absurd isFaulty notFaulty
          · rcases reads.complete pos inside other front' back split' isLaid' with read | isFault
            · rw [first] at read
              obtain ⟨rfl, same⟩ := Prod.mk.inj (Except.ok.inj read)
              rw [position] at same
              have lengths : front.length = front'.length := Nat.add_left_cancel same
              rw [split] at split'
              obtain ⟨-, rfl⟩ := List.append_inj split' lengths
              exact isFaulty
            · exact absurd ((reads.faults pos inside).mp isFault) notFaulty

theorem reads_behind {next : α → Reader ε γ} {laid' : α → γ → List β → Prop}
    {faulty' : α → List β → Prop} (reads : Reads input fault reader laid fun _ => False)
    (readsNext : ∀ value, Reads input fault (next value) (laid' value) (faulty' value)) :
    Reads input fault (reader >>= next) (Then laid laid') fun rest =>
      ∃ first front back, rest = front ++ back ∧ laid first front ∧ faulty' first back :=
  (reads_bind reads readsNext).congr (fun _ _ => Iff.rfl) fun _ => or_iff_right id

theorem reads_quiet {next : α → Reader ε γ} {laid' : α → γ → List β → Prop}
    (reads : Reads input fault reader laid fun _ => False)
    (readsNext : ∀ value, Reads input fault (next value) (laid' value) fun _ => False) :
    Reads input fault (reader >>= next) (Then laid laid') fun _ => False := by
  apply (reads_behind reads readsNext).congr (fun _ _ => Iff.rfl)
  intro rest
  refine iff_of_false ?_ id
  rintro ⟨_, _, _, _, _, impossible⟩
  exact impossible

/-- A check that is no fault where it fails. -/
theorem reads_guard {holds : Prop} [Decidable holds] {stop : ε} (notFault : ¬fault stop)
    (reads : Reads input fault reader laid faulty) :
    Reads input fault (if holds then reader else throw stop)
      (fun value part => holds ∧ laid value part) fun rest => holds ∧ faulty rest := by
  by_cases passes : holds
  · rw [if_pos passes]
    exact reads.congr (fun _ _ => (and_iff_right passes).symm) fun _ => (and_iff_right passes).symm
  · rw [if_neg passes]
    apply (reads_throw notFault).congr
    · exact fun _ _ => (iff_of_false id fun both => passes both.1)
    · exact fun _ => (iff_of_false id fun both => passes both.1)

theorem reads_map (image : α → γ) (reads : Reads input fault reader laid faulty) :
    Reads input fault (image <$> reader)
      (fun value part => ∃ source, value = image source ∧ laid source part) faulty := by
  have mapped : image <$> reader = reader >>= fun source => pure (image source) := by
    exact (bind_pure_comp image reader).symm
  rw [mapped]
  apply (reads_bind reads fun source => reads_pure (image source)).congr
  · intro value part
    constructor
    · rintro ⟨source, front, back, rfl, isLaid, rfl, rfl⟩
      rw [List.append_nil]
      exact ⟨source, rfl, isLaid⟩
    · rintro ⟨source, rfl, isLaid⟩
      exact ⟨source, part, [], (List.append_nil part).symm, isLaid, rfl, rfl⟩
  · intro rest
    refine ⟨fun either => either.elim id ?_, Or.inl⟩
    rintro ⟨_, _, _, _, _, impossible⟩
    exact impossible.elim

/-- The parts of the values stand one behind the other. -/
def Sequence (laid : α → List β → Prop) (values : List α) (part : List β) : Prop :=
  ∃ pieces : List (α × List β), values = pieces.map Prod.fst ∧ part = pieces.flatMap Prod.snd ∧
    ∀ piece ∈ pieces, laid piece.1 piece.2

theorem sequence_nil {part : List β} : Sequence laid [] part ↔ part = [] := by
  constructor
  · rintro ⟨pieces, none, rfl, -⟩
    rw [List.map_eq_nil_iff.mp none.symm]
    rfl
  · rintro rfl
    exact ⟨[], rfl, rfl, fun piece member => by cases member⟩

theorem sequence_cons {value : α} {values : List α} {part : List β} :
    Sequence laid (value :: values) part ↔
      ∃ front back, part = front ++ back ∧ laid value front ∧ Sequence laid values back := by
  constructor
  · rintro ⟨pieces, shape, rfl, isLaid⟩
    obtain ⟨piece, rest, rfl, rfl, rfl⟩ := List.map_eq_cons_iff.mp shape.symm
    refine ⟨piece.2, rest.flatMap Prod.snd, rfl, isLaid piece List.mem_cons_self, rest, rfl, rfl, ?_⟩
    exact fun other member => isLaid other (List.mem_cons_of_mem _ member)
  · rintro ⟨front, back, rfl, isLaid, pieces, rfl, rfl, areLaid⟩
    refine ⟨(value, front) :: pieces, rfl, rfl, fun piece member => ?_⟩
    rcases List.mem_cons.mp member with rfl | later
    · exact isLaid
    · exact areLaid piece later

/-- A fault behind fewer values than are to be read. -/
def FaultyWithin (laid : α → List β → Prop) (faulty : List β → Prop) (count : Nat)
    (rest : List β) : Prop :=
  ∃ values front back, rest = front ++ back ∧ values.length < count ∧
    Sequence laid values front ∧ faulty back

theorem faultyWithin_succ {count : Nat} {rest : List β} : FaultyWithin laid faulty (count + 1) rest ↔
    FaultyThen faulty laid (fun _ => FaultyWithin laid faulty count) rest := by
  constructor
  · rintro ⟨values, front, back, rfl, fewer, sequence, isFaulty⟩
    cases values with
    | nil =>
        rw [sequence_nil.mp sequence]
        exact Or.inl isFaulty
    | cons value values =>
        obtain ⟨front', back', rfl, isLaid, later⟩ := sequence_cons.mp sequence
        refine Or.inr ⟨value, front', back' ++ back, List.append_assoc _ _ _, isLaid, values, back',
          back, rfl, ?_, later, isFaulty⟩
        rw [List.length_cons] at fewer
        omega
  · rintro (isFaulty | ⟨value, front, _, rfl, isLaid, values, back, last, rfl, fewer, later, isFaulty⟩)
    · exact ⟨[], [], rest, rfl, Nat.succ_pos _, sequence_nil.mpr rfl, isFaulty⟩
    · refine ⟨value :: values, front ++ back, last, (List.append_assoc _ _ _).symm, ?_, ?_, isFaulty⟩
      · rw [List.length_cons]
        omega
      · exact sequence_cons.mpr ⟨front, back, rfl, isLaid, later⟩

theorem reads_many (reads : Reads input fault reader laid faulty) (count : Nat) :
    Reads input fault (many reader count)
      (fun values part => values.length = count ∧ Sequence laid values part)
      (FaultyWithin laid faulty count) := by
  induction count with
  | zero =>
      apply (reads_pure []).congr
      · intro values part
        constructor
        · rintro ⟨rfl, rfl⟩
          exact ⟨rfl, sequence_nil.mpr rfl⟩
        · rintro ⟨none, sequence⟩
          rw [List.length_eq_zero_iff.mp none] at sequence ⊢
          exact ⟨rfl, sequence_nil.mp sequence⟩
      · intro rest
        refine iff_of_false id ?_
        rintro ⟨values, front, back, -, fewer, -⟩
        exact absurd fewer (Nat.not_lt_zero _)
  | succ count ih =>
      have shape : many reader (count + 1) =
          reader >>= fun value => (value :: ·) <$> many reader count := by
        rw [many]
        simp only [bind_pure_comp]
      rw [shape]
      apply (reads_bind reads fun value => reads_map (value :: ·) ih).congr
      · intro values part
        constructor
        · rintro ⟨value, front, back, rfl, isLaid, values', rfl, many, later⟩
          refine ⟨by rw [List.length_cons, many], ?_⟩
          exact sequence_cons.mpr ⟨front, back, rfl, isLaid, later⟩
        · rintro ⟨many, sequence⟩
          cases values with
          | nil => cases many
          | cons value values =>
              obtain ⟨front, back, rfl, isLaid, later⟩ := sequence_cons.mp sequence
              exact ⟨value, front, back, rfl, isLaid, values, rfl, Nat.succ.inj many, later⟩
      · exact fun rest => faultyWithin_succ.symm

end Reader

namespace LittleEndian

def value : List UInt8 → Nat
  | [] => 0
  | b :: rest => b.toNat + 256 * value rest

def bytes : Nat → Nat → List UInt8
  | 0, _ => []
  | width + 1, number => UInt8.ofNat number :: bytes width (number / 256)

@[simp] theorem length_bytes (width number : Nat) : (bytes width number).length = width := by
  induction width generalizing number with
  | zero => rfl
  | succ width ih => rw [bytes, List.length_cons, ih]

theorem value_lt (list : List UInt8) : value list < 256 ^ list.length := by
  induction list with
  | nil => decide
  | cons b rest ih =>
      have small := b.toNat_lt
      rw [value, List.length_cons, Nat.pow_succ]
      omega

theorem value_bytes {width number : Nat} (fits : number < 256 ^ width) :
    value (bytes width number) = number := by
  induction width generalizing number with
  | zero =>
      rw [Nat.pow_zero] at fits
      rw [bytes, value]
      omega
  | succ width ih =>
      have fits' : number / 256 < 256 ^ width := by
        apply Nat.div_lt_of_lt_mul
        rwa [Nat.mul_comm, ← Nat.pow_succ]
      rw [bytes, value, ih fits', UInt8.toNat_ofNat']
      exact Nat.mod_add_div number 256

theorem bytes_value (list : List UInt8) : bytes list.length (value list) = list := by
  induction list with
  | nil => rfl
  | cons b rest ih =>
      have low : UInt8.ofNat (b.toNat + 256 * value rest) = b := by
        apply UInt8.toNat_inj.mp
        have small := b.toNat_lt
        rw [UInt8.toNat_ofNat', show 2 ^ 8 = 256 from rfl, Nat.add_mul_mod_self_left]
        exact Nat.mod_eq_of_lt small
      have high : (b.toNat + 256 * value rest) / 256 = value rest := by
        have small := b.toNat_lt
        omega
      rw [List.length_cons, value, bytes, low, high, ih]

end LittleEndian

end Rayzor.Library
