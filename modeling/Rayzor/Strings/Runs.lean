import Rayzor.Strings.HaxeString

/-!
Contract: programs that make strings of others, and what their strings remember.
-/

namespace Rayzor.Strings

open Library

/-! ### Calls -/

/-- A null pointer, or one of the strings there are -/
abbrev Pointer := Option Nat

/-- What a program asks for -/
inductive Call where
  | fromBytes (bytes : List UInt8)
  | length (s : Pointer)
  | charCodeAt (s : Pointer) (index : Nat)
  | concat (a b : Pointer)
  | concatSret (a b : Pointer)
  | substr (s : Pointer) (pos len : Int32)
  | substring (s : Pointer) (startIndex endIndex : Int32)
  | charAt (s : Pointer) (index : Int64)
  | substrBytes (s : Pointer) (start length : Nat)
  | substringBytes (s : Pointer) (start stop : Nat)
  | upper (s : Pointer)
  | lower (s : Pointer)

def resolve (heap : List HaxeString) : Pointer → Option (Option HaxeString)
  | none => some none
  | some i => heap[i]?.map some

/-- The strings, after the header of one was written -/
def update (heap : List HaxeString) : Pointer → Option HaxeString → List HaxeString
  | some i, some s => heap.set i s
  | _, _ => heap

/-- A function that only looks at a string has counted its characters. -/
def look (heap : List HaxeString) (s : Pointer) : Option (List HaxeString) := do
  let found ← resolve heap s
  pure (update heap s (stringText found).2)

def derive (heap : List HaxeString) (s : Pointer) (function : Text → Option HaxeString) :
    Option (List HaxeString) := do
  let found ← resolve heap s
  let made ← function (stringText found).1
  pure (update heap s (stringText found).2 ++ [made])

/-- A function that makes a string of the bytes of another -/
def copy (heap : List HaxeString) (s : Pointer)
    (function : Option HaxeString → Option HaxeString) : Option (List HaxeString) := do
  let found ← resolve heap s
  let made ← function found
  pure (heap ++ [made])

def join (heap : List HaxeString) (a b : Pointer)
    (function : Option HaxeString → Option HaxeString → Option HaxeString) :
    Option (List HaxeString) := do
  let first ← resolve heap a
  let second ← resolve heap b
  let made ← function first second
  pure (heap ++ [made])

section

-- The case mappings of texts
variable (toUppercase toLowercase : List UInt8 → List UInt8)

/-- The strings there are after a call; no answer where it panics, or reads what is not there. -/
def exec (heap : List HaxeString) : Call → Option (List HaxeString)
  | .fromBytes bytes => (fromParts bytes).map (heap ++ [·])
  | .length s => look heap s
  | .charCodeAt s _ => look heap s
  | .concat a b => join heap a b haxeStringConcat
  | .concatSret a b => join heap a b haxeStringConcatSret
  | .substr s pos len => derive heap s (haxeStringSubstrPtr · pos len)
  | .substring s startIndex endIndex => derive heap s (haxeStringSubstringPtr · startIndex endIndex)
  | .charAt s index => derive heap s (haxeStringCharAtPtr · index)
  | .substrBytes s start length => copy heap s (haxeStringSubstr · start length)
  | .substringBytes s start stop => copy heap s (haxeStringSubstring · start stop)
  | .upper s => copy heap s (haxeStringCase toUppercase)
  | .lower s => copy heap s (haxeStringCase toLowercase)

/-- The runs whose calls are all allowed, and the strings they make -/
inductive Reaches (Allowed : List HaxeString → Call → Prop) : List HaxeString → Prop
  | start : Reaches Allowed []
  | call {heap heap' : List HaxeString} {call : Call} : Reaches Allowed heap →
      Allowed heap call → exec toUppercase toLowercase heap call = some heap' →
      Reaches Allowed heap'

end

/-! ### Concatenations -/

/-- The first bytes end in a character that the second complete. -/
def Severs (a b : List UInt8) : Prop :=
  ∃ i < a.length, a.length < i + charWidth (a ++ b) i

def Counted (s : HaxeString) : Prop := s.bytes = [] ∨ s.chars ≤ s.bytes.length

/-- A concatenation of strings that are both counted does not sever a character. -/
def Careful (heap : List HaxeString) : Call → Prop
  | .concat a b => ∀ first second, resolve heap a = some first → resolve heap b = some second →
      Counted (first.getD nullString) → Counted (second.getD nullString) →
      ¬ Severs (first.getD nullString).bytes (second.getD nullString).bytes
  | _ => True

def AnyCall : List HaxeString → Call → Prop := fun _ _ => True

/-! ### One segmentation -/

/-- The functions on code points all describe one split of the bytes. -/
structure OneSegmentation (b : List UInt8) : Prop where
  whole : (codePoints.pieces b).flatten = b
  width : ∀ i < b.length, charWidth b i = codePoints.width (b.drop i) ∧
    i + charWidth b i ≤ b.length
  decoded : ∀ i, (decodeChar b i).2 = charWidth b i
  count : charCount b = (codePoints.pieces b).length
  boundary : ∀ n, codePoints.Boundary b (advanceChars b 0 n)
  index_advance : ∀ n ≤ charCount b, byteToChar b (advanceChars b 0 n) = n
  advance_index : ∀ offset, codePoints.Boundary b offset →
    advanceChars b 0 (byteToChar b offset) = offset
  onward : ∀ m n, advanceChars b (advanceChars b 0 m) n = advanceChars b 0 (m + n)
  charToByte : ∀ index, (Text.mk b (charCount b)).charToByte index = charToByte b index
  byteToChar : ∀ offset, (Text.mk b (charCount b)).byteToChar offset = byteToChar b offset
  advanceChars : ∀ start count,
    (Text.mk b (charCount b)).advanceChars start count = advanceChars b start count

/-- What a string remembers of its characters is right, and its text is read with it. -/
structure Sound (s : HaxeString) : Prop where
  cached : s.chars = charsUnknown ∨ s.chars = charCount s.bytes
  text : (stringText (some s)).1 = ⟨s.bytes, charCount s.bytes⟩

theorem oneSegmentation (b : List UInt8) : OneSegmentation b where
  whole := codePoints.flatten_pieces b
  width i inside := by
    have fits := codePoints.fits (drop_ne_nil inside)
    rw [List.length_drop, width_drop] at fits
    exact ⟨(width_drop b i).symm, by omega⟩
  decoded _ := rfl
  count := charCount_eq b
  boundary n := by
    rw [← charToByte, charToByte_eq]
    exact codePoints.boundary_advance n b
  index_advance n enough := by
    rw [charCount_eq] at enough
    rw [← charToByte, charToByte_eq, byteToChar_eq, min_eq_left (codePoints.advance_le n b),
      codePoints.index_advance enough]
  advance_index offset boundary := by
    have reached := codePoints.advance_index boundary
    have within := codePoints.advance_le (codePoints.index b offset) b
    rw [reached] at within
    rw [← charToByte, charToByte_eq, byteToChar_eq, min_eq_left within, reached]
  onward m n := by
    rw [← charToByte, ← charToByte, charToByte_eq, charToByte_eq, advanceChars_eq,
      min_eq_left (codePoints.advance_le m b), codePoints.advance_add]
  charToByte := charToByte_counted b
  byteToChar := byteToChar_counted b
  advanceChars := advanceChars_counted b

/-! ### What one function makes -/

/-- The remembered number of characters is right, if there is one. -/
def Cached (s : HaxeString) : Prop := s.chars = charsUnknown ∨ s.chars = charCount s.bytes

theorem charCount_le (b : List UInt8) : charCount b ≤ b.length := by
  rw [charCount_eq]
  exact codePoints.count_le_length b

theorem not_unknown_le (s : HaxeString) : ¬ charsUnknown ≤ s.bytes.length := by
  have short := s.short
  rw [isizeMax] at short
  rw [charsUnknown]
  omega

theorem text_of_cached {s : HaxeString} (cached : Cached s) :
    (stringText (some s)).1 = ⟨s.bytes, charCount s.bytes⟩ := by
  have few := charCount_le s.bytes
  have long := not_unknown_le s
  rw [stringText]
  split_ifs with isEmpty counted
  · rw [List.isEmpty_iff] at isEmpty
    rw [isEmpty, charCount_eq, codePoints.count_nil]
  · rcases cached with unknown | right
    · rw [unknown] at counted
      exact absurd counted long
    · rw [right]
  · rfl
  · rfl

theorem cached_stringText {s s' : HaxeString} (cached : Cached s)
    (isText : (stringText (some s)).2 = some s') : Cached s' := by
  rw [stringText] at isText
  split_ifs at isText <;> cases isText
  case pos => exact cached
  case pos => exact cached
  case pos => exact Or.inr rfl
  case neg => exact cached

theorem allocated_eq {bytes : List UInt8} {chars : Nat} {s : HaxeString}
    (made : allocated bytes chars = some s) : s.bytes = bytes ∧ s.chars = chars := by
  rw [allocated] at made
  split_ifs at made
  cases made
  exact ⟨rfl, rfl⟩

theorem cached_fromParts {bytes : List UInt8} {s : HaxeString} (made : fromParts bytes = some s) :
    Cached s := Or.inl (allocated_eq made).2

theorem cached_emptyString : Cached emptyString := by
  refine Or.inr ?_
  rw [emptyString, charCount_eq, codePoints.count_nil]

theorem cached_boxedText {bytes : List UInt8} {chars : Nat} {s : HaxeString}
    (right : chars = charsUnknown ∨ chars = charCount bytes)
    (made : boxedText bytes chars = some s) : Cached s := by
  rw [boxedText] at made
  split_ifs at made
  case pos =>
    cases made
    exact cached_emptyString
  case neg =>
    obtain ⟨isBytes, isChars⟩ := allocated_eq made
    rw [Cached, isBytes, isChars]
    exact right

theorem charsOf_eq_iff (s : HaxeString) : charsOf s ≠ charsUnknown ↔ Counted s := by
  have long := not_unknown_le s
  rw [Counted, ← List.length_eq_zero_iff, charsOf]
  split_ifs with isEmpty counted
  · exact iff_of_true (by decide) (Or.inl isEmpty)
  · apply iff_of_true _ (Or.inr counted)
    intro unknown
    exact long (unknown ▸ counted)
  · exact iff_of_false (not_not_intro rfl) (not_or_intro isEmpty counted)

theorem charsOf_of_cached {s : HaxeString} (cached : Cached s) (counted : Counted s) :
    charsOf s = codePoints.count s.bytes := by
  rw [← charCount_eq, charsOf]
  split_ifs with isEmpty few
  · rw [List.length_eq_zero_iff] at isEmpty
    rw [isEmpty, charCount_eq, codePoints.count_nil]
  · rcases cached with unknown | right
    · exact absurd (unknown ▸ few) (not_unknown_le s)
    · exact right
  · rw [List.length_eq_zero_iff] at isEmpty
    exact absurd counted (not_or_intro isEmpty few)

theorem severs_iff (a b : List UInt8) : Severs a b ↔ codePoints.Straddles a b := by
  rw [Severs, Segmentation.Straddles]
  simp only [codePoints_width, ← charWidth_drop]

/-- A concatenation of two counted strings remembers the right number exactly when it does
not sever a character. -/
theorem concat_counted {a b : Option HaxeString} {s : HaxeString}
    (cachedA : Cached (a.getD nullString)) (cachedB : Cached (b.getD nullString))
    (countedA : Counted (a.getD nullString)) (countedB : Counted (b.getD nullString))
    (made : haxeStringConcat a b = some s) :
    Cached s ↔ ¬ Severs (a.getD nullString).bytes (b.getD nullString).bytes := by
  rw [haxeStringConcat] at made
  generalize a.getD nullString = first at *
  generalize b.getD nullString = second at *
  have counts := codePoints.count_append first.bytes second.bytes
  rw [if_pos ⟨(charsOf_eq_iff first).mpr countedA, (charsOf_eq_iff second).mpr countedB⟩,
    charsOf_of_cached cachedA countedA, charsOf_of_cached cachedB countedB] at made
  obtain ⟨isBytes, isChars⟩ := allocated_eq made
  have long := not_unknown_le s
  have short := codePoints.count_le_length first.bytes
  have short' := codePoints.count_le_length second.bytes
  rw [isBytes, List.length_append] at long
  rw [Cached, isChars, isBytes, charCount_eq, severs_iff]
  constructor
  · intro right severs
    have fewer := counts.2 severs
    rcases right with unknown | right <;> omega
  · intro apart
    exact Or.inr (counts.1 apart).symm

theorem cached_concat {a b : Option HaxeString} {s : HaxeString}
    (cachedA : Cached (a.getD nullString)) (cachedB : Cached (b.getD nullString))
    (careful : Counted (a.getD nullString) → Counted (b.getD nullString) →
      ¬ Severs (a.getD nullString).bytes (b.getD nullString).bytes)
    (made : haxeStringConcat a b = some s) : Cached s := by
  by_cases counted : Counted (a.getD nullString) ∧ Counted (b.getD nullString)
  · exact (concat_counted cachedA cachedB counted.1 counted.2 made).mpr
      (careful counted.1 counted.2)
  · rw [haxeStringConcat] at made
    rw [if_neg (by rwa [charsOf_eq_iff, charsOf_eq_iff])] at made
    exact Or.inl (allocated_eq made).2

/-! ### Parts of a string -/

/-- The bytes between the starts of two characters hold the characters between them. -/
theorem count_between {b : List UInt8} {m n : Nat} (enough : m + n ≤ codePoints.count b) :
    codePoints.count ((b.take (codePoints.advance (m + n) b)).drop (codePoints.advance m b)) = n := by
  have left := codePoints.count_drop m b
  rw [codePoints.advance_add, List.drop_take, Nat.add_sub_cancel_left]
  exact codePoints.count_take (by omega)

theorem advance_min (n : Nat) (b : List UInt8) :
    codePoints.advance (min n (codePoints.count b)) b = codePoints.advance n b := by
  rcases Nat.le_total n (codePoints.count b) with few | all
  · rw [min_eq_left few]
  · rw [min_eq_right all, codePoints.advance_of_count_le (Nat.le_refl _),
      codePoints.advance_of_count_le all]

theorem cached_subText {b : List UInt8} {m n : Nat} {s : HaxeString}
    (enough : m + n ≤ codePoints.count b)
    (made : subText ⟨b, charCount b⟩ (codePoints.advance m b) (codePoints.advance (m + n) b) n =
      some s) : Cached s := by
  rw [subText] at made
  split_ifs at made
  exact cached_boxedText (Or.inr (by rw [charCount_eq, count_between enough])) made

theorem charToByte_text (b : List UInt8) (index : Nat) :
    (Text.mk b (charCount b)).charToByte index = codePoints.advance index b := by
  rw [charToByte_counted, charToByte_eq]

theorem advanceChars_text (b : List UInt8) (m n : Nat) :
    (Text.mk b (charCount b)).advanceChars (codePoints.advance m b) n =
      codePoints.advance (m + n) b := by
  rw [advanceChars_counted, advanceChars_eq, min_eq_left (codePoints.advance_le m b),
    codePoints.advance_add]

theorem cached_substr {b : List UInt8} {pos len : Int32} {s : HaxeString}
    (made : haxeStringSubstrPtr ⟨b, charCount b⟩ pos len = some s) : Cached s := by
  rw [haxeStringSubstrPtr] at made
  dsimp only at made
  rw [charToByte_text, advanceChars_text] at made
  split_ifs at made
  all_goals try exact cached_boxedText (Or.inl rfl) made
  all_goals
    refine cached_subText ?_ made
    rw [← charCount_eq]
    omega

theorem cached_substring {b : List UInt8} {startIndex endIndex : Int32} {s : HaxeString}
    (made : haxeStringSubstringPtr ⟨b, charCount b⟩ startIndex endIndex = some s) : Cached s := by
  rw [haxeStringSubstringPtr] at made
  dsimp only at made
  rw [charToByte_text, charToByte_text] at made
  generalize (max startIndex.toInt 0).toNat = one at made
  generalize (max endIndex.toInt 0).toNat = other at made
  have ordered : (if other < one then other else one) ≤ (if other < one then one else other) := by
    split_ifs <;> omega
  generalize (if other < one then other else one) = first at made ordered
  generalize (if other < one then one else other) = last at made ordered
  rw [← advance_min first, ← advance_min last, ← charCount_eq] at made
  have between : min last (charCount b) =
      min first (charCount b) + (min last (charCount b) - min first (charCount b)) := by
    omega
  generalize min first (charCount b) = m at made between
  generalize isTo : min last (charCount b) = m' at made between
  have within : m' ≤ charCount b := isTo ▸ Nat.min_le_right _ _
  generalize m' - m = n at made between
  rw [between] at made within
  rw [charCount_eq] at within
  exact cached_subText within made

theorem cached_charAt {b : List UInt8} {index : Int64} {s : HaxeString}
    (made : haxeStringCharAtPtr ⟨b, charCount b⟩ index = some s) : Cached s := by
  rw [haxeStringCharAtPtr] at made
  dsimp only at made
  rw [charToByte_text] at made
  generalize index.toInt.toNat = i at made
  split_ifs at made with negative past past
  · exact cached_boxedText (Or.inl rfl) made
  · exact absurd (Nat.le_refl _) past
  · exact cached_boxedText (Or.inl rfl) made
  · refine cached_boxedText (Or.inr ?_) made
    have before : i < codePoints.count b := by
      by_contra all
      exact past (Nat.le_of_eq (codePoints.advance_of_count_le (Nat.le_of_not_lt all)).symm)
    have one : codePoints.advance i b + charWidth b (codePoints.advance i b) =
        codePoints.advance (i + 1) b := by
      rw [codePoints.advance_add, codePoints.advance_succ (drop_ne_nil (Nat.lt_of_not_le past)),
        codePoints.advance_zero, width_drop, Nat.add_zero]
    rw [charCount_eq, one, count_between before]

theorem cached_substringBytes {found : Option HaxeString} {start stop : Nat} {s : HaxeString}
    (made : haxeStringSubstring found start stop = some s) : Cached s := by
  cases found with
  | none => exact cached_fromParts made
  | some string =>
      rw [haxeStringSubstring] at made
      split_ifs at made <;> exact cached_fromParts made

theorem cached_substrBytes {found : Option HaxeString} {start length : Nat} {s : HaxeString}
    (made : haxeStringSubstr found start length = some s) : Cached s := by
  cases found with
  | none => exact cached_fromParts made
  | some string =>
      rw [haxeStringSubstr] at made
      exact cached_substringBytes made

theorem cached_case {mapping : List UInt8 → List UInt8} {found : Option HaxeString}
    {s : HaxeString} (made : haxeStringCase mapping found = some s) : Cached s := by
  cases found with
  | none =>
      cases made
      exact cached_emptyString
  | some string =>
      rw [haxeStringCase] at made
      split_ifs at made
      · cases made
        exact cached_emptyString
      · exact cached_fromParts made
      · exact cached_fromParts made

theorem cached_concatSret {a b : Option HaxeString} {s : HaxeString}
    (made : haxeStringConcatSret a b = some s) : Cached s := by
  rw [haxeStringConcatSret.eq_def] at made
  split at made <;> exact cached_fromParts made

/-! ### Runs -/

theorem cached_append {heap : List HaxeString} {made : HaxeString}
    (cached : ∀ s ∈ heap, Cached s) (isCached : Cached made) : ∀ s ∈ heap ++ [made], Cached s := by
  intro s inHeap
  rcases List.mem_append.mp inHeap with old | isMade
  · exact cached s old
  · rw [List.mem_singleton.mp isMade]
    exact isCached

/-- What is found at a pointer is counted right, and so is what is left there. -/
theorem cached_found {heap : List HaxeString} {s : Pointer} {found : Option HaxeString}
    (cached : ∀ s ∈ heap, Cached s) (isFound : resolve heap s = some found) :
    (stringText found).1 = ⟨(stringText found).1.bytes, charCount (stringText found).1.bytes⟩ ∧
      (∀ s' ∈ update heap s (stringText found).2, Cached s') ∧ Cached (found.getD nullString) := by
  cases s with
  | none =>
      cases isFound
      refine ⟨?_, cached, Or.inl rfl⟩
      rw [stringText, charCount_eq, codePoints.count_nil]
  | some i =>
      obtain ⟨string, isString, isSome⟩ := Option.map_eq_some_iff.mp isFound
      cases isSome
      have isCached := cached string (List.mem_of_getElem? isString)
      have isText := text_of_cached isCached
      refine ⟨by rw [isText], ?_, isCached⟩
      cases isLeft : (stringText (some string)).2 with
      | none => exact cached
      | some left =>
          intro s' inHeap
          rcases List.mem_or_eq_of_mem_set inHeap with old | isNew
          · exact cached s' old
          · rw [isNew]
            exact cached_stringText isCached isLeft

theorem cached_derive {heap heap' : List HaxeString} {s : Pointer}
    {function : Text → Option HaxeString} (cached : ∀ s ∈ heap, Cached s)
    (isCached : ∀ {b made}, function ⟨b, charCount b⟩ = some made → Cached made)
    (executes : derive heap s function = some heap') : ∀ s ∈ heap', Cached s := by
  rw [derive, Option.bind_eq_bind, Option.bind_eq_some_iff] at executes
  obtain ⟨found, isFound, executes⟩ := executes
  rw [Option.bind_eq_bind, Option.bind_eq_some_iff] at executes
  obtain ⟨made, isMade, executes⟩ := executes
  cases executes
  obtain ⟨isText, left, _⟩ := cached_found cached isFound
  rw [isText] at isMade
  exact cached_append left (isCached isMade)

theorem cached_copy {heap heap' : List HaxeString} {s : Pointer}
    {function : Option HaxeString → Option HaxeString} (cached : ∀ s ∈ heap, Cached s)
    (isCached : ∀ {found made}, function found = some made → Cached made)
    (executes : copy heap s function = some heap') : ∀ s ∈ heap', Cached s := by
  rw [copy, Option.bind_eq_bind, Option.bind_eq_some_iff] at executes
  obtain ⟨found, _, executes⟩ := executes
  obtain ⟨made, isMade, isHeap⟩ := Option.bind_eq_some_iff.mp executes
  cases isHeap
  exact cached_append cached (isCached isMade)

theorem cached_look {heap heap' : List HaxeString} {s : Pointer} (cached : ∀ s ∈ heap, Cached s)
    (executes : look heap s = some heap') : ∀ s ∈ heap', Cached s := by
  obtain ⟨found, isFound, isHeap⟩ := Option.bind_eq_some_iff.mp executes
  cases isHeap
  exact (cached_found cached isFound).2.1

theorem cached_join {heap heap' : List HaxeString} {a b : Pointer}
    {function : Option HaxeString → Option HaxeString → Option HaxeString}
    (cached : ∀ s ∈ heap, Cached s)
    (isCached : ∀ {first second made}, resolve heap a = some first →
      resolve heap b = some second → function first second = some made → Cached made)
    (executes : join heap a b function = some heap') : ∀ s ∈ heap', Cached s := by
  obtain ⟨first, isFirst, executes⟩ := Option.bind_eq_some_iff.mp executes
  obtain ⟨second, isSecond, executes⟩ := Option.bind_eq_some_iff.mp executes
  obtain ⟨made, isMade, isHeap⟩ := Option.bind_eq_some_iff.mp executes
  cases isHeap
  exact cached_append cached (isCached isFirst isSecond isMade)

section

variable {toUppercase toLowercase : List UInt8 → List UInt8}

/-- A careful call leaves every remembered number right. -/
theorem cached_exec {heap heap' : List HaxeString} {call : Call} (cached : ∀ s ∈ heap, Cached s)
    (careful : Careful heap call)
    (executes : exec toUppercase toLowercase heap call = some heap') : ∀ s ∈ heap', Cached s := by
  cases call with
  | fromBytes bytes =>
      obtain ⟨made, isMade, isHeap⟩ := Option.map_eq_some_iff.mp executes
      cases isHeap
      exact cached_append cached (cached_fromParts isMade)
  | length s => exact cached_look cached executes
  | charCodeAt s index => exact cached_look cached executes
  | concat a b =>
      apply cached_join cached _ executes
      intro first second made isFirst isSecond isMade
      exact cached_concat (cached_found cached isFirst).2.2 (cached_found cached isSecond).2.2
        (careful first second isFirst isSecond) isMade
  | concatSret a b => exact cached_join cached (fun _ _ => cached_concatSret) executes
  | substr s pos len =>
      rw [exec] at executes
      exact cached_derive cached cached_substr executes
  | substring s startIndex endIndex =>
      rw [exec] at executes
      exact cached_derive cached cached_substring executes
  | charAt s index =>
      rw [exec] at executes
      exact cached_derive cached cached_charAt executes
  | substrBytes s start length =>
      rw [exec] at executes
      exact cached_copy cached cached_substrBytes executes
  | substringBytes s start stop =>
      rw [exec] at executes
      exact cached_copy cached cached_substringBytes executes
  | upper s =>
      rw [exec] at executes
      exact cached_copy cached cached_case executes
  | lower s =>
      rw [exec] at executes
      exact cached_copy cached cached_case executes

/-- In a run whose concatenations sever no character, whatever the bytes are, every string
remembers the number of its characters, which is that of the one segmentation. -/
theorem sound_of_careful {heap : List HaxeString}
    (reaches : Reaches toUppercase toLowercase Careful heap) :
    (∀ b, OneSegmentation b) ∧ ∀ s ∈ heap, Sound s := by
  have cached : ∀ s ∈ heap, Cached s := by
    induction reaches with
    | start => exact fun s inNil => nomatch inNil
    | call reached isAllowed executes ih =>
        exact cached_exec ih isAllowed executes
  refine ⟨oneSegmentation, ?_⟩
  intro s inHeap
  exact ⟨cached s inHeap, text_of_cached (cached s inHeap)⟩

end

/-- A careful run: two letters are counted and put together. -/
theorem sound_of_careful_concatenated :
    ∃ heap, Reaches id id Careful heap ∧ (∀ b, OneSegmentation b) ∧ ∀ s ∈ heap, Sound s := by
  have first : Reaches id id Careful [⟨[0x61], charsUnknown, by decide⟩] :=
    @Reaches.call _ _ _ _ _ (.fromBytes [0x61]) .start trivial rfl
  have counted : Reaches id id Careful [⟨[0x61], 1, by decide⟩] :=
    @Reaches.call _ _ _ _ _ (.length (some 0)) first trivial rfl
  have careful : Careful [⟨[0x61], 1, by decide⟩] (.concat (some 0) (some 0)) := by
    intro first second isFirst isSecond _ _
    cases isFirst
    cases isSecond
    rintro ⟨i, below, past⟩
    obtain rfl : i = 0 := Nat.lt_one_iff.mp below
    exact absurd past (by decide)
  have concatenated : Reaches id id Careful [⟨[0x61], 1, by decide⟩, ⟨[0x61, 0x61], 2, by decide⟩] :=
    .call counted careful rfl
  exact ⟨_, concatenated, sound_of_careful concatenated⟩

/-! ### A character that is put together -/

theorem charCount_singleton (c : UInt8) : charCount [c] = 1 := by
  have few := codePoints.count_le_length [c]
  rw [charCount_eq]
  rw [codePoints.count_of_ne_nil (List.cons_ne_nil c [])] at few ⊢
  rw [List.length_singleton] at few
  omega

theorem look_singleton (c : UInt8) (before : List HaxeString) (short : [c].length ≤ isizeMax) :
    exec id id (before ++ [⟨[c], charsUnknown, short⟩]) (.length (some before.length)) =
      some (before ++ [⟨[c], 1, short⟩]) := by
  have found : (before ++ [(⟨[c], charsUnknown, short⟩ : HaxeString)])[before.length]? =
      some ⟨[c], charsUnknown, short⟩ := List.getElem?_concat_length
  have isText : (stringText (some ⟨[c], charsUnknown, short⟩)).2 =
      some ⟨[c], charCount [c], short⟩ := rfl
  rw [exec, look, resolve, found]
  show some (update _ _ _) = _
  rw [isText, charCount_singleton, update, List.set_append_right _ _ (Nat.le_refl _), Nat.sub_self]
  rfl

/-- The two bytes of a character, each counted by itself, are remembered to be two. -/
theorem severed_concat_unsound :
    ¬ ∀ heap, Reaches id id AnyCall heap → (∀ b, OneSegmentation b) ∧ ∀ s ∈ heap, Sound s := by
  intro always
  have first : Reaches id id AnyCall [⟨[0xC3], charsUnknown, by decide⟩] :=
    @Reaches.call _ _ _ _ _ (.fromBytes [0xC3]) .start trivial rfl
  have firstCounted : Reaches id id AnyCall [⟨[0xC3], 1, by decide⟩] :=
    .call first trivial (look_singleton 0xC3 [] (by decide))
  have second : Reaches id id AnyCall
      [⟨[0xC3], 1, by decide⟩, ⟨[0xA9], charsUnknown, by decide⟩] :=
    @Reaches.call _ _ _ _ _ (.fromBytes [0xA9]) firstCounted trivial rfl
  have secondCounted : Reaches id id AnyCall [⟨[0xC3], 1, by decide⟩, ⟨[0xA9], 1, by decide⟩] :=
    .call second trivial (look_singleton 0xA9 [⟨[0xC3], 1, by decide⟩] (by decide))
  have concatenated : Reaches id id AnyCall
      [⟨[0xC3], 1, by decide⟩, ⟨[0xA9], 1, by decide⟩, ⟨[0xC3, 0xA9], 2, by decide⟩] :=
    @Reaches.call _ _ _ _ _ (.concat (some 0) (some 1)) secondCounted trivial rfl
  have one : charCount [0xC3, 0xA9] = 1 := by
    rw [charCount_eq, codePoints.count_of_ne_nil (List.cons_ne_nil _ _)]
    show codePoints.count [] + 1 = 1
    rw [codePoints.count_nil]
  have sound := (always _ concatenated).2 ⟨[0xC3, 0xA9], 2, by decide⟩
    (List.mem_cons_of_mem _ (List.mem_cons_of_mem _ List.mem_cons_self))
  rcases sound.cached with unknown | right
  · exact absurd unknown (by decide)
  · rw [one] at right
    exact absurd right (by decide)

end Rayzor.Strings
