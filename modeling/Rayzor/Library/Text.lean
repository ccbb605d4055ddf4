import Mathlib

/-!
Contract: finding, counting and breaking in a text, a list of symbols.

Owns: the first occurrence of a needle, the number of occurrences that do not
overlap, the pieces between the occurrences of one symbol, and how these go
through an append.
-/

namespace Rayzor.Library.Text

universe u

variable {α : Type u} [DecidableEq α]

/-- The first occurrence of the needle: what stands before it, and what follows. -/
def splitFirst (needle : List α) : List α → Option (List α × List α)
  | [] => if needle = [] then some ([], []) else none
  | symbol :: rest =>
      if needle.isPrefixOf (symbol :: rest) then
        some ([], (symbol :: rest).drop needle.length)
      else (splitFirst needle rest).map fun found => (symbol :: found.1, found.2)

def contains (needle text : List α) : Bool := (splitFirst needle text).isSome

/-- Occurrences from left to right, each behind the end of the one before;
`skip` symbols still belong to the last one found. -/
def occurrencesFrom (needle : List α) : Nat → List α → Nat
  | _, [] => 0
  | skip + 1, _ :: rest => occurrencesFrom needle skip rest
  | 0, symbol :: rest =>
      if needle.isPrefixOf (symbol :: rest) then
        1 + occurrencesFrom needle (needle.length - 1) rest
      else occurrencesFrom needle 0 rest

def occurrences (needle text : List α) : Nat := occurrencesFrom needle 0 text

theorem append_of_splitFirst {needle : List α} :
    ∀ {text before after : List α}, splitFirst needle text = some (before, after) →
      text = before ++ needle ++ after
  | [], before, after, found => by
      rw [splitFirst] at found
      split_ifs at found with empty
      cases found
      simp [empty]
  | symbol :: rest, before, after, found => by
      rw [splitFirst] at found
      split_ifs at found with here
      · cases found
        have opens := List.isPrefixOf_iff_prefix.mp here
        show symbol :: rest = needle ++ (symbol :: rest).drop needle.length
        exact (List.prefix_iff_eq_append.mp opens).symm
      · obtain ⟨⟨before', after'⟩, isFound, same⟩ := Option.map_eq_some_iff.mp found
        cases same
        show symbol :: rest = symbol :: (before' ++ needle ++ after')
        rw [← append_of_splitFirst isFound]

theorem length_of_splitFirst {needle text before after : List α}
    (found : splitFirst needle text = some (before, after)) :
    text.length = before.length + needle.length + after.length := by
  rw [append_of_splitFirst found, List.length_append, List.length_append]

theorem getElem?_takeWhile {β : Type u} (test : β → Bool) : ∀ text : List β,
    (∀ index, index < (text.takeWhile test).length →
      ∃ symbol, text[index]? = some symbol ∧ test symbol = true) ∧
    ∀ symbol, text[(text.takeWhile test).length]? = some symbol → test symbol = false
  | [] => ⟨fun index inside => absurd inside (Nat.not_lt_zero _), fun symbol found =>
      absurd found (by simp)⟩
  | symbol :: rest => by
      obtain ⟨inside, behind⟩ := getElem?_takeWhile test rest
      rw [List.takeWhile_cons]
      split_ifs with passes
      · refine ⟨fun index before => ?_, fun other found => behind other found⟩
        cases index with
        | zero => exact ⟨symbol, rfl, passes⟩
        | succ index => exact inside index (Nat.lt_of_succ_lt_succ before)
      · refine ⟨fun index before => absurd before (Nat.not_lt_zero _), fun other found => ?_⟩
        cases found
        exact Bool.eq_false_iff.mpr passes

/-- The pieces between the occurrences of `stop`; there is one more than there
are occurrences. -/
def pieces (stop : α) : List α → List (List α)
  | [] => [[]]
  | symbol :: rest =>
      if symbol = stop then [] :: pieces stop rest
      else (symbol :: (pieces stop rest).headD []) :: (pieces stop rest).tail

variable {stop : α}

variable (stop) in
theorem pieces_ne_nil : ∀ text : List α, pieces stop text ≠ []
  | [] => List.cons_ne_nil _ _
  | symbol :: rest => by
      rw [pieces]
      split_ifs <;> exact List.cons_ne_nil _ _

theorem pieces_of_notMem : ∀ {text : List α}, stop ∉ text → pieces stop text = [text]
  | [], _ => rfl
  | symbol :: rest, absent => by
      have apart : symbol ≠ stop := fun same => absent (same ▸ List.mem_cons_self)
      have later : stop ∉ rest := fun member => absent (List.mem_cons_of_mem _ member)
      rw [pieces, if_neg apart, pieces_of_notMem later]
      rfl

theorem pieces_append_stop : ∀ text rest : List α,
    pieces stop (text ++ stop :: rest) = pieces stop text ++ pieces stop rest
  | [], rest => by
      show pieces stop (stop :: rest) = [[]] ++ pieces stop rest
      rw [pieces, if_pos rfl]
      rfl
  | symbol :: text, rest => by
      rw [List.cons_append, pieces, pieces, pieces_append_stop text rest]
      have some := pieces_ne_nil stop text
      split_ifs
      · rfl
      · obtain ⟨piece, more, shape⟩ := List.exists_cons_of_ne_nil some
        rw [shape]
        rfl

theorem stop_notMem_of_mem_pieces : ∀ {text piece : List α}, piece ∈ pieces stop text →
    stop ∉ piece
  | [], piece, member => by
      rw [show piece = [] from List.mem_singleton.mp member]
      exact List.not_mem_nil
  | symbol :: rest, piece, member => by
      obtain ⟨first, more, shape⟩ := List.exists_cons_of_ne_nil (pieces_ne_nil stop rest)
      have later : ∀ piece ∈ first :: more, stop ∉ piece := fun piece member =>
        stop_notMem_of_mem_pieces (shape ▸ member)
      rw [pieces, shape] at member
      split_ifs at member with same
      · rcases List.mem_cons.mp member with rfl | member
        · exact List.not_mem_nil
        · exact later piece member
      · rcases List.mem_cons.mp member with rfl | member
        · rw [List.mem_cons, not_or]
          exact ⟨fun isStop => same isStop.symm, later first List.mem_cons_self⟩
        · exact later piece (List.mem_cons_of_mem _ member)

theorem pieces_replicate_append (text : List α) : ∀ count : Nat,
    pieces stop (List.replicate count stop ++ text) = List.replicate count [] ++ pieces stop text
  | 0 => rfl
  | count + 1 => by
      rw [List.replicate_succ, List.cons_append, pieces, if_pos rfl,
        pieces_replicate_append text count]
      rfl

theorem intercalate_cons_cons (line next : List α) (lines : List (List α)) :
    List.intercalate [stop] (line :: next :: lines) =
      line ++ stop :: List.intercalate [stop] (next :: lines) := by
  simp [List.intercalate, List.intersperse]

theorem intercalate_singleton (line : List α) : List.intercalate [stop] [line] = line := by
  simp [List.intercalate]

theorem intercalate_concat_nil : ∀ {lines : List (List α)}, lines ≠ [] →
    List.intercalate [stop] (lines ++ [[]]) = List.intercalate [stop] lines ++ [stop]
  | [], nonempty => absurd rfl nonempty
  | [line], _ => by
      rw [List.singleton_append, intercalate_cons_cons, intercalate_singleton,
        intercalate_singleton]
  | line :: next :: lines, _ => by
      show List.intercalate [stop] (line :: next :: (lines ++ [[]])) = _
      rw [intercalate_cons_cons, intercalate_cons_cons, List.append_assoc, List.cons_append,
        ← intercalate_concat_nil (List.cons_ne_nil next lines)]
      rfl

variable (stop) in
/-- The pieces with `stop` between them are the text again. -/
theorem intercalate_pieces : ∀ text : List α, List.intercalate [stop] (pieces stop text) = text
  | [] => intercalate_singleton []
  | symbol :: rest => by
      obtain ⟨first, more, shape⟩ := List.exists_cons_of_ne_nil (pieces_ne_nil stop rest)
      have again := intercalate_pieces rest
      rw [shape] at again
      rw [pieces, shape]
      split_ifs with same
      · rw [intercalate_cons_cons, again, same]
        rfl
      · show List.intercalate [stop] ((symbol :: first) :: more) = symbol :: rest
        rw [← again]
        cases more with
        | nil => rw [intercalate_singleton, intercalate_singleton]
        | cons next more =>
            rw [intercalate_cons_cons, intercalate_cons_cons]
            rfl

theorem eq_of_pieces_eq_singleton {text piece : List α} (single : pieces stop text = [piece]) :
    piece = text := by
  have again := intercalate_pieces stop text
  rwa [single, intercalate_singleton] at again

variable (stop) in
/-- The last piece is empty when the text is, or ends with `stop`. -/
theorem getLast?_pieces_eq_nil_iff : ∀ text : List α,
    (pieces stop text).getLast? = some [] ↔ text = [] ∨ text.getLast? = some stop
  | [] => by simp [pieces]
  | [symbol] => by
      rw [pieces]
      split_ifs with same <;> simp [pieces, same]
  | symbol :: next :: rest => by
      have again := getLast?_pieces_eq_nil_iff (next :: rest)
      rw [List.getLast?_cons_cons, pieces]
      obtain ⟨first, more, shape⟩ :=
        List.exists_cons_of_ne_nil (pieces_ne_nil stop (next :: rest))
      rw [shape] at again ⊢
      have inner : (next :: rest).getLast? = some stop ↔ (first :: more).getLast? = some [] := by
        rw [again]
        simp
      split_ifs
      · rw [List.getLast?_cons_cons, ← inner]
        simp
      · cases more with
        | nil =>
            have whole := eq_of_pieces_eq_singleton shape
            simp only [List.headD_cons, List.tail_cons, List.getLast?_singleton] at inner ⊢
            simp [inner, whole]
        | cons other more =>
            rw [List.getLast?_cons_cons] at inner
            rw [List.headD_cons, List.tail_cons, List.getLast?_cons_cons, ← inner]
            simp

/-- Lines put together with `stop` between them fall apart into the same lines. -/
theorem pieces_intercalate : ∀ {lines : List (List α)}, lines ≠ [] →
    (∀ line ∈ lines, stop ∉ line) → pieces stop (List.intercalate [stop] lines) = lines
  | [], nonempty, _ => absurd rfl nonempty
  | [line], _, clear => by
      rw [intercalate_singleton]
      exact pieces_of_notMem (clear line List.mem_cons_self)
  | line :: next :: lines, _, clear => by
      rw [intercalate_cons_cons, pieces_append_stop, pieces_of_notMem (clear line List.mem_cons_self),
        pieces_intercalate (List.cons_ne_nil _ _) fun other member =>
          clear other (List.mem_cons_of_mem _ member)]
      rfl

end Rayzor.Library.Text
