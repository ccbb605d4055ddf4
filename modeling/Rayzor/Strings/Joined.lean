import Rayzor.Strings.Split

/-!
Contract: a split cuts a string at its delimiter, and a join undoes it.
-/

namespace Rayzor.Strings

open Library

variable {s needle delimiter : HaxeString}

/-! ### The answers of the search -/

def answer : Option Nat → Int32
  | some i => Int32.ofNat i
  | none => -1

/-- The longest string whose offsets all fit the answer of the search -/
def offsetLimit : Nat := 2 ^ 31

theorem toInt_answer {i : Nat} (fits : i < offsetLimit) : (answer (some i)).toInt = i :=
  Int32.toInt_ofNat_of_lt fits

theorem answer_nonneg {i : Nat} (fits : i < offsetLimit) : ¬ answer (some i) < 0 := by
  rw [Int32.lt_iff_toInt_lt, toInt_answer fits]
  exact Int.not_lt.mpr (Int.natCast_nonneg i)

theorem slice_of_le {b : List UInt8} {start stop : Nat} (ordered : start ≤ stop)
    (within : stop ≤ b.length) : slice b start stop = .ok ((b.take stop).drop start) :=
  if_pos ⟨ordered, within⟩

theorem slice_of_gt {b : List UInt8} {start stop : Nat} (past : b.length < stop) :
    slice b start stop = .error .slice :=
  if_neg fun within => Nat.not_le_of_lt past within.2

/-! ### The search -/

theorem searchFrom_step {haystack needle : List UInt8} {last i : Nat} (inside : i ≤ last)
    (fits : last + needle.length ≤ haystack.length) :
    searchFrom haystack needle last i =
      if needle <+: haystack.drop i then .ok (Int32.ofNat i)
      else searchFrom haystack needle last (i + 1) := by
  have same : (haystack.take (i + needle.length)).drop i = needle ↔ needle <+: haystack.drop i := by
    rw [List.drop_take, Nat.add_sub_cancel_left, List.prefix_iff_eq_take]
    exact eq_comm
  rw [searchFrom, if_pos inside, slice_of_le (Nat.le_add_right _ _) (by omega)]
  show (if _ then _ else _) = _
  by_cases occurs : needle <+: haystack.drop i
  · rw [if_pos occurs, if_pos (same.mpr occurs)]
    rfl
  · rw [if_neg occurs, if_neg (fun isPart => occurs (same.mp isPart))]

theorem searchFrom_first {haystack needle : List UInt8} {last i : Nat} (nonempty : needle ≠ [])
    (isLast : last + needle.length = haystack.length) :
    ∃ found, First needle haystack i found ∧
      searchFrom haystack needle last i = .ok (answer found) := by
  induction isLeft : last + 1 - i generalizing i with
  | zero =>
      refine ⟨none, First.past nonempty (by omega), ?_⟩
      rw [searchFrom, if_neg (by omega)]
      rfl
  | succ left ih =>
      rw [searchFrom_step (by omega) (Nat.le_of_eq isLast)]
      by_cases occurs : needle <+: haystack.drop i
      · refine ⟨some i, ⟨Nat.le_refl i, occurs, fun j behind before => absurd behind (by omega)⟩, ?_⟩
        rw [if_pos occurs]
        rfl
      · obtain ⟨found, first, isFound⟩ := @ih (i + 1) (by omega)
        refine ⟨found, ?_, by rw [if_neg occurs, isFound]⟩
        cases found with
        | none =>
            intro j behind
            rcases Nat.eq_or_lt_of_le behind with isHere | later
            · rw [← isHere]
              exact occurs
            · exact first j later
        | some i' =>
            refine ⟨Nat.le_of_succ_le first.1, first.2.1, ?_⟩
            intro j behind before
            rcases Nat.eq_or_lt_of_le behind with isHere | later
            · rw [← isHere]
              exact occurs
            · exact first.2.2 j later before

theorem indexOf_first {start : Nat} (nonempty : needle.bytes ≠ [])
    (short : start = 0 → s.bytes.length = 0 ∨ needle.bytes.length ≤ s.bytes.length) :
    ∃ found, First needle.bytes s.bytes start found ∧
      haxeStringIndexOf (some s) (some needle) start = .ok (answer found) := by
  have height := List.length_pos_of_ne_nil nonempty
  rw [haxeStringIndexOf]
  by_cases past : s.bytes.length ≤ start
  · exact ⟨none, First.past nonempty (by omega), if_pos (Or.inr past)⟩
  · rw [if_neg (by omega)]
    by_cases fits : needle.bytes.length ≤ s.bytes.length
    · exact searchFrom_first nonempty (Nat.sub_add_cancel fits)
    · refine ⟨none, First.past nonempty (by omega), ?_⟩
      rw [searchFrom, if_neg (by omega)]
      rfl

theorem indexOf_nil (isEmpty : needle.bytes = []) (start : Nat) :
    haxeStringIndexOf (some s) (some needle) start = .ok (-1) := by
  rw [haxeStringIndexOf, isEmpty]
  exact if_pos (Or.inl rfl)

/-- For a needle that is longer than the string, the search at its start slices the string out
of range. -/
theorem indexOf_long (nonempty : s.bytes ≠ []) (long : s.bytes.length < needle.bytes.length) :
    haxeStringIndexOf (some s) (some needle) 0 = .error .slice := by
  have height := List.length_pos_of_ne_nil nonempty
  rw [haxeStringIndexOf, if_neg (by omega), searchFrom, if_pos (Nat.zero_le _),
    slice_of_gt (by omega)]
  rfl

/-! ### The split at a delimiter -/

theorem granted_fromParts {bytes : List UInt8} (short : bytes.length ≤ isizeMax) :
    ∃ made, granted (fromParts bytes) = .ok made ∧ made.bytes = bytes := by
  rw [fromParts, allocated, dif_pos short]
  exact ⟨_, rfl, rfl⟩

theorem substring_bytes (s : HaxeString) {start stop : Nat} (ordered : start ≤ stop)
    (within : stop ≤ s.bytes.length) :
    ∃ part, granted (haxeStringSubstring (some s) start stop) = .ok part ∧
      part.bytes = (s.bytes.take stop).drop start := by
  rw [haxeStringSubstring, min_eq_left within, min_eq_left (Nat.le_trans ordered within)]
  by_cases isEmpty : stop ≤ start
  · have nil : (s.bytes.take stop).drop start = [] := by
      apply List.drop_of_length_le
      rw [List.length_take]
      omega
    rw [nil, if_pos isEmpty]
    exact granted_fromParts (Nat.zero_le _)
  · rw [if_neg isEmpty]
    have short := s.short
    apply granted_fromParts
    rw [List.length_drop, List.length_take]
    omega

theorem split_from {start : Nat} (nonempty : delimiter.bytes ≠ [])
    (limit : s.bytes.length ≤ offsetLimit) (within : start ≤ s.bytes.length)
    (short : start = 0 → s.bytes.length = 0 ∨ delimiter.bytes.length ≤ s.bytes.length) :
    ∃ parts : List HaxeString, Cut delimiter.bytes (s.bytes.drop start) (parts.map (·.bytes)) ∧
      ∀ fuel, s.bytes.length - start < fuel →
        (∀ count, countFrom s delimiter fuel (count + 1) start = .ok (count + parts.length)) ∧
        ∀ count arrayIdx, arrayIdx + parts.length ≤ count →
          fillFrom s delimiter count fuel arrayIdx start = .ok parts := by
  induction isLeft : s.bytes.length - start using Nat.strong_induction_on generalizing start with
  | _ left ih =>
      have height := List.length_pos_of_ne_nil nonempty
      obtain ⟨found, first, isFound⟩ := indexOf_first nonempty short
      cases found with
      | none =>
          obtain ⟨part, isPart, isBytes⟩ := substring_bytes s within (Nat.le_refl _)
          rw [List.take_length] at isBytes
          refine ⟨[part], ?_, ?_⟩
          · rw [List.map_singleton, isBytes]
            exact .last first.drop
          · intro fuel enough
            obtain ⟨fuel, rfl⟩ := Nat.exists_eq_succ_of_ne_zero (Nat.ne_zero_of_lt enough)
            constructor
            · intro count
              rw [countFrom, isFound]
              rfl
            · intro count arrayIdx room
              have stored : storePart count arrayIdx = .ok () :=
                if_pos (Nat.lt_of_lt_of_le (Nat.lt_succ_self _) room)
              rw [fillFrom, isFound]
              show (granted _ >>= _) = _
              rw [isPart]
              show (storePart _ _ >>= _) = _
              rw [stored]
              rfl
      | some i =>
          have fits := first.fits nonempty
          have small : i < offsetLimit := by omega
          have isIndex : (answer (some i)).toInt.toNat = i := by
            rw [toInt_answer small, Int.toNat_natCast]
          obtain ⟨part, isPart, isBytes⟩ := substring_bytes s first.1 (by omega)
          have behind := first.1
          obtain ⟨parts, cut, loops⟩ := ih _
            (show s.bytes.length - (i + delimiter.bytes.length) < left by omega) fits
            (by omega) rfl
          refine ⟨part :: parts, ?_, ?_⟩
          · have found := first.drop
            have rest := @Cut.cut _ delimiter.bytes _ (i - start) (parts.map (·.bytes)) found (by
              rw [List.drop_drop,
                show start + (i - start + delimiter.bytes.length) = i + delimiter.bytes.length by
                  omega]
              exact cut)
            rw [List.map_cons, isBytes, List.drop_take]
            exact rest
          · intro fuel enough
            obtain ⟨fuel, rfl⟩ := Nat.exists_eq_succ_of_ne_zero (Nat.ne_zero_of_lt enough)
            obtain ⟨counts, fills⟩ := loops fuel (by omega)
            constructor
            · intro count
              rw [countFrom, isFound]
              show (if answer (some i) < 0 then _ else _) = _
              rw [if_neg (answer_nonneg small), isIndex, counts (count + 1), List.length_cons]
              congr 1
              omega
            · intro count arrayIdx room
              rw [List.length_cons] at room
              have stored : storePart count arrayIdx = .ok () := if_pos (by omega)
              rw [fillFrom, isFound]
              show (if answer (some i) < 0 then _ else _) = _
              rw [if_neg (answer_nonneg small), isIndex, isPart]
              show (storePart _ _ >>= _) = _
              rw [stored]
              show (fillFrom _ _ _ _ _ _ >>= _) = _
              rw [fills count (arrayIdx + 1) (by omega)]
              rfl

theorem split_parts (nonempty : delimiter.bytes ≠ []) (limit : s.bytes.length ≤ offsetLimit)
    (short : s.bytes.length = 0 ∨ delimiter.bytes.length ≤ s.bytes.length) :
    ∃ parts, Cut delimiter.bytes s.bytes (parts.map HaxeString.bytes) ∧
      ∀ fuel, s.bytes.length < fuel →
        haxeStringSplitArray fuel (some s) (some delimiter) = .ok parts := by
  have height := List.length_pos_of_ne_nil nonempty
  obtain ⟨parts, cut, loops⟩ := split_from nonempty limit (Nat.zero_le _) (fun _ => short)
  refine ⟨parts, cut, ?_⟩
  intro fuel enough
  obtain ⟨counts, fills⟩ := loops fuel enough
  rw [haxeStringSplitArray, if_neg (Nat.ne_of_gt height), counts 0, Nat.zero_add]
  show (fillFrom _ _ _ _ _ _ >>= _) = _
  rw [fills _ 0 (Nat.le_of_eq (Nat.zero_add _))]
  exact if_pos rfl

/-- The first delimiter is searched for in a string that is too short to hold it. -/
theorem split_long {fuel : Nat} (nonempty : s.bytes ≠ [])
    (long : s.bytes.length < delimiter.bytes.length) :
    haxeStringSplitArray (fuel + 1) (some s) (some delimiter) = .error .slice := by
  rw [haxeStringSplitArray, if_neg (by omega), countFrom, indexOf_long nonempty long]
  rfl

/-! ### The split into characters -/

theorem substrings_bounds (s : HaxeString) : ∀ {pieces : List (List UInt8)} {start : Nat},
    start ≤ s.bytes.length → s.bytes.drop start = pieces.flatten →
    ∃ parts, substrings s (bounds start pieces) = .ok parts ∧ parts.map HaxeString.bytes = pieces
  | [], start, _, _ => ⟨[], rfl, rfl⟩
  | piece :: pieces, start, within, isRest => by
      rw [List.flatten_cons] at isRest
      have long := congrArg List.length isRest
      rw [List.length_drop, List.length_append] at long
      obtain ⟨part, isPart, isBytes⟩ := substring_bytes s (Nat.le_add_right start piece.length)
        (by omega)
      obtain ⟨parts, isParts, areBytes⟩ := @substrings_bounds s pieces (start + piece.length)
        (by omega) (by rw [← List.drop_drop, isRest, List.drop_left])
      refine ⟨part :: parts, ?_, ?_⟩
      · rw [bounds_cons, substrings]
        show (granted _ >>= _) = _
        rw [isPart]
        show (substrings _ _ >>= _) = _
        rw [isParts]
        rfl
      · rw [List.map_cons, areBytes, isBytes, List.drop_take, Nat.add_sub_cancel_left, isRest,
          List.take_left]

theorem offsets_singletons : ∀ (start : Nat) (b : List UInt8),
    offsets start (b.map ([·])) = List.range' start b.length
  | _, [] => rfl
  | start, _ :: b => congrArg (start :: ·) (offsets_singletons (start + 1) b)

theorem flatten_singletons (b : List UInt8) : (b.map ([·])).flatten = b := by
  rw [← List.flatMap_def, List.flatMap_singleton']

theorem splitCharacters_pieces (s : HaxeString) :
    ∃ parts, splitCharacters s = .ok parts ∧
      parts.map HaxeString.bytes = if Utf8.isValid s.bytes then codePoints.pieces s.bytes
        else s.bytes.map ([·]) := by
  rw [← Utf8.isSome_characters, splitCharacters]
  cases encodes : Utf8.characters s.bytes with
  | some text =>
      have isPieces := pieces_of_characters encodes
      have whole : text.flatten = s.bytes := by rw [← isPieces, codePoints.flatten_pieces]
      have parts := @substrings_bounds s text 0 (Nat.zero_le _) whole.symm
      rw [bounds, whole, Nat.zero_add] at parts
      rw [Option.isSome_some, if_pos rfl, isPieces]
      exact parts
  | none =>
      have parts := @substrings_bounds s (s.bytes.map ([·])) 0 (Nat.zero_le _)
        (flatten_singletons s.bytes).symm
      rw [bounds, flatten_singletons, Nat.zero_add, offsets_singletons,
        ← List.range_eq_range'] at parts
      exact parts

/-! ### The join -/

theorem length_written (sep : List UInt8) : ∀ elements : List (Option HaxeString),
    (written sep elements).length = totalLength sep.length elements
  | [] => rfl
  | [_] => rfl
  | s :: next :: rest => by
      rw [written, totalLength, List.length_append, List.length_append,
        length_written sep (next :: rest)]
      all_goals exact List.cons_ne_nil _ _

theorem written_parts (sep : List UInt8) : ∀ parts : List HaxeString,
    written sep (parts.map some) = sep.intercalate (parts.map HaxeString.bytes)
  | [] => rfl
  | [part] => List.intercalate_singleton.symm
  | part :: next :: rest => by
      have later := written_parts sep (next :: rest)
      have shape : sep.intercalate (part.bytes :: (next :: rest).map HaxeString.bytes) =
          part.bytes ++ sep ++ sep.intercalate ((next :: rest).map HaxeString.bytes) :=
        List.intercalate_cons_of_ne_nil (List.cons_ne_nil _ _)
      exact (congrArg (part.bytes ++ sep ++ ·) later).trans shape.symm

theorem join_parts {parts : List HaxeString} (nonempty : parts ≠ [])
    (short : (delimiter.bytes.intercalate (parts.map HaxeString.bytes)).length ≤ isizeMax) :
    ∃ joined, haxeArrayJoin (some (parts.map some)) (some delimiter) = .ok joined ∧
      joined.bytes = delimiter.bytes.intercalate (parts.map HaxeString.bytes) := by
  have height := List.length_pos_of_ne_nil nonempty
  have isSep : bytesOf (some delimiter) = delimiter.bytes := rfl
  rw [haxeArrayJoin, if_neg (by rw [List.length_map]; omega), isSep, ← length_written]
  dsimp only
  rw [List.take_length, written_parts]
  exact granted_fromParts short

/-! ### Splits and searches -/

/-- What a split makes: the pieces between the delimiters, whose join is the string, or its
characters. -/
structure Splits (s delimiter : HaxeString) (parts : List HaxeString) : Prop where
  returns : ∀ fuel, s.bytes.length < fuel →
    haxeStringSplitArray fuel (some s) (some delimiter) = .ok parts
  cut : delimiter.bytes ≠ [] → Cut delimiter.bytes s.bytes (parts.map HaxeString.bytes)
  apart : delimiter.bytes ≠ [] → ∀ part ∈ parts, ¬ delimiter.bytes <:+: part.bytes
  joined : delimiter.bytes ≠ [] → ∃ joined,
    haxeArrayJoin (some (parts.map some)) (some delimiter) = .ok joined ∧ joined.bytes = s.bytes
  characters : delimiter.bytes = [] → parts.map HaxeString.bytes =
    if Utf8.isValid s.bytes then codePoints.pieces s.bytes else s.bytes.map ([·])

/-- What a search answers: the first byte from `start` on where the needle is. -/
structure Finds (s needle : HaxeString) (start : Nat) (found : Option Nat) : Prop where
  returns : haxeStringIndexOf (some s) (some needle) start = .ok (answer found)
  first : needle.bytes ≠ [] → First needle.bytes s.bytes start found
  empty : needle.bytes = [] → found = none
  exact : ∀ i, found = some i → (answer found).toInt = i

theorem splits (limit : s.bytes.length ≤ offsetLimit)
    (short : s.bytes.length = 0 ∨ delimiter.bytes.length ≤ s.bytes.length) :
    ∃ parts, Splits s delimiter parts := by
  by_cases nonempty : delimiter.bytes = []
  · obtain ⟨parts, isParts, areBytes⟩ := splitCharacters_pieces s
    refine ⟨parts, ⟨?_, fun some => absurd nonempty some, fun some => absurd nonempty some,
      fun some => absurd nonempty some, fun _ => areBytes⟩⟩
    intro fuel _
    rw [haxeStringSplitArray, if_pos (List.length_eq_zero_iff.mpr nonempty)]
    exact isParts
  · obtain ⟨parts, cut, returns⟩ := split_parts nonempty limit short
    refine ⟨parts, ⟨returns, fun _ => cut, ?_, ?_, fun isEmpty => absurd isEmpty nonempty⟩⟩
    · intro _ part isPart
      exact cut.not_infix nonempty part.bytes (List.mem_map_of_mem isPart)
    · intro _
      have some : parts ≠ [] := fun isNil => cut.ne_nil (by rw [isNil, List.map_nil])
      obtain ⟨joined, isJoined, isBytes⟩ := join_parts some (by
        rw [cut.intercalate]
        exact s.short)
      exact ⟨joined, isJoined, by rw [isBytes, cut.intercalate]⟩

theorem finds {start : Nat} (limit : s.bytes.length ≤ offsetLimit)
    (short : start = 0 → s.bytes.length = 0 ∨ needle.bytes.length ≤ s.bytes.length) :
    ∃ found, Finds s needle start found := by
  by_cases nonempty : needle.bytes = []
  · exact ⟨none, indexOf_nil nonempty start, fun some => absurd nonempty some, fun _ => rfl,
      fun i isSome => nomatch isSome⟩
  · obtain ⟨found, first, isFound⟩ := indexOf_first nonempty short
    refine ⟨found, isFound, fun _ => first, fun isEmpty => absurd isEmpty nonempty, ?_⟩
    rintro i rfl
    have height := List.length_pos_of_ne_nil nonempty
    have fits := first.fits nonempty
    exact toInt_answer (by omega)

/-- The least index of a character, from `start` on, at which the needle is, or -1 -/
def FirstCharacter (s needle : HaxeString) (start : Nat) (index : Int32) : Prop :=
  (∃ k : Nat, index.toInt = k ∧ start ≤ k ∧
    needle.bytes <+: s.bytes.drop (charToByte s.bytes k) ∧
    ∀ j, start ≤ j → j < k → ¬ needle.bytes <+: s.bytes.drop (charToByte s.bytes j)) ∨
  (index = -1 ∧ ∀ k, start ≤ k → ¬ needle.bytes <+: s.bytes.drop (charToByte s.bytes k))

end Rayzor.Strings
