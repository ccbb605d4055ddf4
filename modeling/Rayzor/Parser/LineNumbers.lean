import Rayzor.Parser.Preprocessor

/-!
Contract: preprocessing keeps every line at its number.

Owns: the lines a source keeps outside inline conditionals (`keptLines`), when the
conditionals across lines fit into the lines they take (`GroupsFit`), and that the
numbers are kept exactly then.
-/

namespace Rayzor.Parser

open Library.Text

variable (evaluate : Text → Bool)

/-! ### Lines of a text -/

/-- A line apart from its line break: carriage returns before a line feed belong
to the break. -/
def bare (line : Text) : Text := line.rdropWhile (· == '\r')

def numberedLines (text : Text) : List Text := (pieces '\n' text).map bare

def Step.taken : Step → List Text
  | .across taken => taken
  | .inline line => [line]
  | .block taken => taken
  | .dropped line => [line]
  | .regular line => [line]

/-- The lines a block leaves for another round, as that round reads them. -/
def nestedLines (block : List Text) : List Text := lines (joinLines (selected evaluate block))

/-- The lines, by number, whose text is kept outside inline conditionals. A blank
line holds no text. -/
def keptFrom : Nat → List Text → List Nat
  | 0, _ => []
  | _ + 1, [] => []
  | fuel + 1, line :: rest =>
      (match (nextStep line rest).1 with
        | .regular line => if (bare line).isEmpty then [] else [0]
        | .block taken => (keptFrom fuel (nestedLines evaluate taken)).map (1 + ·)
        | _ => []) ++
      (keptFrom fuel (nextStep line rest).2).map ((nextStep line rest).1.taken.length + ·)

def keptLines (source : Text) : List Nat :=
  keptFrom evaluate ((lines source).length + 1) (lines source)

/-- As many lines as the source, and every kept line unchanged at its number. -/
structure NumbersKept (source output : Text) (kept : List Nat) : Prop where
  count : (numberedLines output).length = (numberedLines source).length
  inPlace : ∀ number ∈ kept, ∃ line, (numberedLines source)[number]? = some line ∧
    (numberedLines output)[number]? = some line

/-- What conditionals across lines leave has room in the lines they took, and a
last line that is not empty, unless they leave nothing. -/
def fits (taken : List Text) : Bool :=
  let processed := processInlineConditionals evaluate (joinLines taken)
  (pieces '\n' processed).length ≤ taken.length && !endsInBreak processed

/-- Every group of inline conditionals across lines fits, at the top and in the
branches taken. -/
def groupsFitFrom : Nat → List Text → Bool
  | 0, _ => true
  | _ + 1, [] => true
  | fuel + 1, line :: rest =>
      (match (nextStep line rest).1 with
        | .across taken => fits evaluate taken
        | .block taken => groupsFitFrom fuel (nestedLines evaluate taken)
        | _ => true) &&
      groupsFitFrom fuel (nextStep line rest).2

/-- The part of one step in it. -/
def stepFits (fuel : Nat) : Step → Bool
  | .across taken => fits evaluate taken
  | .block taken => groupsFitFrom evaluate fuel (nestedLines evaluate taken)
  | _ => true

def GroupsFit (source : Text) : Prop :=
  groupsFitFrom evaluate ((lines source).length + 1) (lines source) = true

/-! ### Lines of the text that comes out -/

def emittedLines (again : Text → Text) : Step → List Text
  | .across taken =>
      let processed := processInlineConditionals evaluate (joinLines taken)
      pieces '\n' processed ++
        List.replicate (taken.length - max (lines processed).length 1) []
  | .inline line => [processInlineConditionals evaluate line]
  | .block taken =>
      [] :: (if (selected evaluate taken).isEmpty then []
        else pieces '\n' (again (joinLines (selected evaluate taken)))) ++
        List.replicate (taken.length - (1 + (selected evaluate taken).length)) []
  | .dropped _ => [[]]
  | .regular line => [line]

/-- The text of another round. -/
def againWith (fuel : Nat) (source : Text) : Text :=
  finish source (preprocessLines evaluate fuel (lines source))

def outputLines : Nat → List Text → List Text
  | 0, _ => []
  | _ + 1, [] => []
  | fuel + 1, line :: rest =>
      emittedLines evaluate (againWith evaluate fuel) (nextStep line rest).1 ++
        outputLines fuel (nextStep line rest).2

/-! ### The lines of a source -/

theorem bare_stripReturn (line : Text) : bare (stripReturn line) = bare line := by
  rw [stripReturn]
  split_ifs with ends
  · have shape : line.dropLast ++ ['\r'] = line := List.dropLast_append_getLast? _ ends
    rw [bare, bare, ← shape, List.rdropWhile_concat_pos _ _ _ (by rfl), shape]
  · rfl

theorem break_notMem_lines {source line : Text} (member : line ∈ lines source) :
    '\n' ∉ line := by
  rcases List.mem_append.mp member with inner | last
  · obtain ⟨piece, isPiece, rfl⟩ := List.mem_map.mp inner
    have clear : '\n' ∉ piece := stop_notMem_of_mem_pieces (List.dropLast_subset _ isPiece)
    rw [stripReturn]
    split_ifs
    · exact fun inside => clear (List.dropLast_subset _ inside)
    · exact clear
  · have isPiece := (List.mem_filter.mp last).1
    exact stop_notMem_of_mem_pieces (List.mem_of_getLast? (Option.mem_toList.mp isPiece))

/-- What is behind the last line break, when that is nothing. -/
def closing (source : Text) : List Text :=
  if source = [] ∨ source.getLast? = some '\n' then [[]] else []

theorem numberedLines_eq (source : Text) :
    numberedLines source = (lines source).map bare ++ closing source := by
  have last := getLast?_pieces_eq_nil_iff '\n' source
  have shape := List.dropLast_append_getLast (pieces_ne_nil '\n' source)
  have isLast := List.getLast?_eq_some_getLast (pieces_ne_nil '\n' source)
  have same : bare ∘ stripReturn = bare := funext bare_stripReturn
  simp only [numberedLines, lines, closing, ← last, isLast, List.map_append, List.map_map, same]
  conv_lhs => rw [← shape]
  rw [List.map_append, List.append_assoc]
  congr 1
  by_cases empty : (pieces '\n' source).getLast (pieces_ne_nil _ source) = []
  · simp [empty, bare]
  · simp [empty]

theorem length_numberedLines (source : Text) :
    (pieces '\n' source).length = (lines source).length + (closing source).length := by
  have same := congrArg List.length (numberedLines_eq source)
  rwa [numberedLines, List.length_map, List.length_append, List.length_map] at same

/-! ### The lines a step takes -/

theorem joinOpen_append : ∀ (depth : Int) (lines : List Text),
    (joinOpen depth lines).1 ++ (joinOpen depth lines).2.2 = lines
  | _, [] => rfl
  | depth, next :: rest => by
      rw [joinOpen]
      split_ifs
      · rfl
      · show next :: ((joinOpen (depth + depthOf next) rest).1 ++
          (joinOpen (depth + depthOf next) rest).2.2) = next :: rest
        rw [joinOpen_append]

theorem blockRest_append : ∀ (depth : Int) (lines : List Text),
    (blockRest depth lines).1 ++ (blockRest depth lines).2 = lines
  | _, [] => rfl
  | depth, line :: rest => by
      rw [blockRest]
      split_ifs
      · rfl
      · show line :: ((blockRest (depthAfter depth line) rest).1 ++
          (blockRest (depthAfter depth line) rest).2) = line :: rest
        rw [blockRest_append]

theorem taken_append (line : Text) (rest : List Text) :
    (nextStep line rest).1.taken ++ (nextStep line rest).2 = line :: rest := by
  unfold nextStep
  dsimp only
  split_ifs
  · show line :: ((joinOpen (depthOf line) rest).1 ++ (joinOpen (depthOf line) rest).2.2) = _
    rw [joinOpen_append]
  · rfl
  · show line :: ((blockRest 1 rest).1 ++ (blockRest 1 rest).2) = _
    rw [blockRest_append]
  · rfl
  · rfl

theorem taken_length (line : Text) (rest : List Text) :
    (nextStep line rest).1.taken.length + (nextStep line rest).2.length = rest.length + 1 := by
  rw [← List.length_append, taken_append, List.length_cons]

theorem taken_ne_nil (line : Text) (rest : List Text) : (nextStep line rest).1.taken ≠ [] := by
  unfold nextStep
  dsimp only
  split_ifs <;> exact List.cons_ne_nil _ _

/-! ### The lines taken from a block -/

theorem selectLines_forall₂ : ∀ (conditionMet active : Bool) (depth : Nat) (block : List Text),
    List.Forall₂ (fun entry line => entry = [] ∨ entry = line)
      (selectLines evaluate conditionMet active depth block) block
  | _, _, _, [] => List.Forall₂.nil
  | conditionMet, active, depth, line :: rest => by
      have choice : ∀ keep : Bool, (if keep then line else []) = [] ∨
          (if keep then line else []) = line := fun keep => by cases keep <;> simp
      rw [selectLines]
      split_ifs <;>
        first
          | exact List.Forall₂.cons (Or.inl rfl) (selectLines_forall₂ _ _ _ rest)
          | exact List.Forall₂.cons (Or.inr rfl) (selectLines_forall₂ _ _ _ rest)
          | exact List.Forall₂.cons (choice _) (selectLines_forall₂ _ _ _ rest)

theorem getElem?_of_forall₂ {Related : Text → Text → Prop} {entries block : List Text}
    (related : List.Forall₂ Related entries block) :
    ∀ {number : Nat} {entry : Text}, entries[number]? = some entry →
      ∃ line, block[number]? = some line ∧ Related entry line := by
  induction related with
  | nil =>
      intro number entry isEntry
      exact absurd isEntry (by simp)
  | @cons entry line entries block here _ later =>
      intro number found isEntry
      cases number with
      | zero =>
          cases isEntry
          exact ⟨line, rfl, here⟩
      | succ number => exact later isEntry

theorem selected_forall₂ (block : List Text) :
    List.Forall₂ (fun entry line => entry = [] ∨ entry = line) (selected evaluate block)
      block.tail.dropLast :=
  selectLines_forall₂ evaluate _ _ _ _

theorem selected_length (block : List Text) :
    (selected evaluate block).length = block.length - 2 := by
  rw [(selected_forall₂ evaluate block).length_eq, List.length_dropLast, List.length_tail]
  omega

theorem break_notMem_selected {block : List Text} (clear : ∀ line ∈ block, '\n' ∉ line) :
    ∀ entry ∈ selected evaluate block, '\n' ∉ entry := by
  intro entry member
  obtain ⟨number, isEntry⟩ := List.getElem?_of_mem member
  obtain ⟨line, isLine, choice⟩ := getElem?_of_forall₂ (selected_forall₂ evaluate block) isEntry
  rcases choice with rfl | rfl
  · exact List.not_mem_nil
  · exact clear entry (List.mem_of_mem_tail
      (List.dropLast_subset _ (List.mem_of_getElem? isLine)))

theorem pieces_joinLines {taken : List Text} (nonempty : taken ≠ [])
    (clear : ∀ line ∈ taken, '\n' ∉ line) : pieces '\n' (joinLines taken) = taken :=
  pieces_intercalate nonempty clear

/-- The lines another round reads are those left for it, up to a last empty one. -/
theorem nestedLines_eq {block : List Text} (clear : ∀ line ∈ block, '\n' ∉ line)
    (nonempty : selected evaluate block ≠ []) :
    (nestedLines evaluate block).map bare ++ closing (joinLines (selected evaluate block)) =
      (selected evaluate block).map bare := by
  have inner := break_notMem_selected evaluate clear
  rw [nestedLines, ← numberedLines_eq, numberedLines, pieces_joinLines nonempty inner]

theorem nestedLines_length_le {block : List Text} (clear : ∀ line ∈ block, '\n' ∉ line) :
    (nestedLines evaluate block).length ≤ (selected evaluate block).length := by
  by_cases empty : selected evaluate block = []
  · rw [nestedLines, empty]
    exact Nat.le_refl _
  · have same := congrArg List.length (nestedLines_eq evaluate clear empty)
    rw [List.length_append, List.length_map, List.length_map] at same
    omega

/-! ### What an inline conditional leaves -/

theorem arms_subset : ∀ (fuel : Nat) (condition : Option Text) (body : Text)
    (arm : Option Text × Text), arm ∈ arms fuel condition body → arm.2 ⊆ body
  | 0, condition, body, arm, member => by
      rw [List.mem_singleton.mp member]
      exact List.Subset.refl _
  | fuel + 1, condition, body, arm, member => by
      rw [arms] at member
      cases found : splitFirst "#else".toList body with
      | none =>
          rw [found] at member
          rw [List.mem_singleton.mp member]
          exact List.Subset.refl _
      | some split =>
          obtain ⟨content, after⟩ := split
          have shape := append_of_splitFirst found
          have fromAfter : after ⊆ body := by
            rw [shape]
            exact List.subset_append_right _ _
          rw [found] at member
          rcases List.mem_cons.mp member with rfl | later
          · rw [shape, List.append_assoc]
            exact List.subset_append_left _ _
          · dsimp only at later
            split_ifs at later
            · have inner := arms_subset fuel _ _ arm later
              exact List.Subset.trans inner (List.Subset.trans (List.drop_subset _ _)
                (List.Subset.trans (List.drop_subset _ _) fromAfter))
            · exact List.Subset.trans (arms_subset fuel _ _ arm later) fromAfter

theorem mem_armText {branch : Text} {c : Char} (member : c ∈ armText branch) :
    c ∈ branch ∨ c = ';' := by
  rcases List.mem_append.mp member with content | semicolon
  · have inside := (List.rdropWhile_prefix _ _).subset content
    have trimmed := (List.dropWhile_suffix _).subset inside
    have started := (List.rdropWhile_prefix _ _).subset trimmed
    exact Or.inl ((List.dropWhile_suffix _).subset started)
  · split_ifs at semicolon
    · exact Or.inr (List.mem_singleton.mp semicolon)
    · exact absurd semicolon List.not_mem_nil

/-- Inline conditionals add nothing to a text but semicolons. -/
theorem mem_inlineFrom {c : Char} : ∀ (fuel : Nat) (text : Text),
    c ∈ inlineFrom evaluate fuel text → c ∈ text ∨ c = ';'
  | 0, _, member => absurd member List.not_mem_nil
  | fuel + 1, text, member => by
      rw [inlineFrom] at member
      cases found : splitFirst "#if ".toList text with
      | none =>
          rw [found] at member
          exact Or.inl member
      | some split =>
          obtain ⟨before, after⟩ := split
          have shape := append_of_splitFirst found
          have fromBefore : before ⊆ text := by
            rw [shape, List.append_assoc]
            exact List.subset_append_left _ _
          have fromAfter : after ⊆ text := by
            rw [shape]
            exact List.subset_append_right _ _
          rw [found] at member
          dsimp only at member
          cases closed : splitFirst "#end".toList (after.drop (conditionEnd after)) with
          | none =>
              rw [closed] at member
              rcases List.mem_append.mp member with inBefore | inText
              · exact Or.inl (fromBefore inBefore)
              · exact Or.inl inText
          | some split =>
              obtain ⟨body, tail⟩ := split
              have inner := append_of_splitFirst closed
              have fromDrop : after.drop (conditionEnd after) ⊆ text :=
                List.Subset.trans (List.drop_subset _ _) fromAfter
              have fromRest : body ++ tail ⊆ text := by
                refine List.Subset.trans ?_ fromDrop
                rw [inner, List.append_assoc]
                exact List.append_subset.mpr ⟨List.subset_append_left _ _,
                  fun _ inTail => List.mem_append_right _ (List.mem_append_right _ inTail)⟩
              rw [closed] at member
              dsimp only at member
              rw [List.append_assoc] at member
              rcases List.mem_append.mp member with inBefore | later
              · exact Or.inl (fromBefore inBefore)
              · rcases List.mem_append.mp later with inArm | inTail
                · cases isTaken : takenArm evaluate (trim (after.take (conditionEnd after))) body with
                  | none =>
                      rw [isTaken] at inArm
                      exact absurd inArm List.not_mem_nil
                  | some branch =>
                      rw [isTaken] at inArm
                      obtain ⟨arm, isArm, rfl⟩ := Option.map_eq_some_iff.mp isTaken
                      have fromBody := arms_subset _ _ _ _ (List.mem_of_find?_eq_some isArm)
                      rcases mem_armText inArm with inBranch | semicolon
                      · exact Or.inl (fromRest (List.mem_append_left _ (fromBody inBranch)))
                      · exact Or.inr semicolon
                · rcases mem_inlineFrom fuel tail inTail with inText | semicolon
                  · exact Or.inl (fromRest (List.mem_append_right _ inText))
                  · exact Or.inr semicolon

theorem break_notMem_processInline {line : Text} (clear : '\n' ∉ line) :
    '\n' ∉ processInlineConditionals evaluate line := by
  intro member
  rcases mem_inlineFrom evaluate _ _ member with inLine | semicolon
  · exact clear inLine
  · exact absurd semicolon (by decide)

/-! ### The lines of the text that comes out -/

theorem preprocessLines_cons (fuel : Nat) (line : Text) (rest : List Text) :
    preprocessLines evaluate (fuel + 1) (line :: rest) =
      emit evaluate (againWith evaluate fuel) (nextStep line rest).1 ++
        preprocessLines evaluate fuel (nextStep line rest).2 := rfl

theorem preprocessLines_nil (fuel : Nat) : preprocessLines evaluate fuel [] = [] := by
  cases fuel <;> rfl

theorem outputLines_nil (fuel : Nat) : outputLines evaluate fuel [] = [] := by
  cases fuel <;> rfl

theorem againWith_nil (fuel : Nat) : againWith evaluate fuel [] = [] := by
  have none : lines [] = [] := rfl
  rw [againWith, none, preprocessLines_nil]
  rfl

theorem pieces_emit_append {again : Text → Text} (againNil : again [] = []) {step : Step}
    (clear : ∀ line ∈ step.taken, '\n' ∉ line) (rest : Text) :
    pieces '\n' (emit evaluate again step ++ rest) =
      emittedLines evaluate again step ++ pieces '\n' rest := by
  cases step with
  | across taken =>
      rw [emit, emittedLines, List.append_assoc, List.cons_append, pieces_append_stop,
        pieces_replicate_append, List.append_assoc]
  | inline line =>
      have inside := break_notMem_processInline evaluate (clear line List.mem_cons_self)
      rw [emit, emittedLines, List.append_assoc, List.singleton_append, pieces_append_stop,
        pieces_of_notMem inside]
  | block taken =>
      rw [emit, emittedLines, List.append_assoc, List.append_assoc, List.cons_append,
        List.cons_append, pieces, if_pos rfl]
      cases shape : selected evaluate taken with
      | nil =>
          rw [show joinLines [] = [] from rfl, againNil]
          show [] :: pieces '\n' (List.replicate (taken.length - 1) '\n' ++ rest) = _
          rw [pieces_replicate_append]
          rfl
      | cons entry entries =>
          show [] :: pieces '\n' (again _ ++ '\n' :: (List.replicate _ '\n' ++ rest)) = _
          rw [pieces_append_stop, pieces_replicate_append]
          show [] :: (pieces '\n' (again _) ++ (_ ++ pieces '\n' rest)) =
            [] :: (pieces '\n' (again _) ++ _ ++ pieces '\n' rest)
          rw [List.append_assoc]
  | dropped line => rfl
  | regular line =>
      rw [emit, emittedLines, List.append_assoc, List.singleton_append, pieces_append_stop,
        pieces_of_notMem (clear line List.mem_cons_self)]

theorem pieces_preprocessLines : ∀ (fuel : Nat) (source : List Text),
    (∀ line ∈ source, '\n' ∉ line) →
    pieces '\n' (preprocessLines evaluate fuel source) = outputLines evaluate fuel source ++ [[]]
  | 0, _, _ => rfl
  | _ + 1, [], _ => rfl
  | fuel + 1, line :: rest, clear => by
      have shape := taken_append line rest
      have inTaken : ∀ other ∈ (nextStep line rest).1.taken, '\n' ∉ other := fun other member =>
        clear other (shape ▸ List.mem_append_left _ member)
      have inRest : ∀ other ∈ (nextStep line rest).2, '\n' ∉ other := fun other member =>
        clear other (shape ▸ List.mem_append_right _ member)
      rw [preprocessLines_cons, outputLines,
        pieces_emit_append evaluate (againWith_nil evaluate fuel) inTaken,
        pieces_preprocessLines fuel _ inRest, List.append_assoc]

theorem outputLines_ne_nil {fuel : Nat} {line : Text} {rest : List Text} :
    outputLines evaluate (fuel + 1) (line :: rest) ≠ [] := by
  rw [outputLines]
  cases (nextStep line rest).1 with
  | across taken =>
      have some := pieces_ne_nil '\n'
        (processInlineConditionals evaluate (joinLines taken))
      rw [emittedLines]
      simp [some]
  | inline line => exact List.cons_ne_nil _ _
  | block taken => exact List.cons_ne_nil _ _
  | dropped line => exact List.cons_ne_nil _ _
  | regular line => exact List.cons_ne_nil _ _

theorem pieces_againWith {fuel : Nat} {source : Text} (enough : (lines source).length < fuel) :
    pieces '\n' (againWith evaluate fuel source) =
      outputLines evaluate fuel (lines source) ++ closing source := by
  have whole := pieces_preprocessLines evaluate fuel (lines source)
    fun line => break_notMem_lines
  have isLast := getLast?_pieces_eq_nil_iff '\n'
    (preprocessLines evaluate fuel (lines source))
  rw [whole, List.getLast?_concat] at isLast
  rw [againWith, finish, closing]
  by_cases empty : source = []
  · have none : lines source = [] := by rw [empty]; rfl
    rw [none, preprocessLines_nil, outputLines_nil, if_pos (Or.inl empty)]
    split_ifs <;> rfl
  by_cases ends : source.getLast? = some '\n'
  · rw [if_pos (Or.inr ends), if_neg (by simp [endsInBreak, ends])]
    exact whole
  · have sourceLines : lines source ≠ [] := by
      have tall := length_numberedLines source
      rw [closing, if_neg (not_or.mpr ⟨empty, ends⟩)] at tall
      have some := List.length_pos_of_ne_nil (pieces_ne_nil '\n' source)
      rw [tall, List.length_nil, Nat.add_zero] at some
      exact List.ne_nil_of_length_pos some
    obtain ⟨line, rest, shape⟩ := List.exists_cons_of_ne_nil sourceLines
    obtain ⟨fuel, rfl⟩ : ∃ smaller, fuel = smaller + 1 := ⟨fuel - 1, by omega⟩
    have some := @outputLines_ne_nil evaluate fuel line rest
    rw [← shape] at some
    have again := intercalate_pieces '\n'
      (preprocessLines evaluate (fuel + 1) (lines source))
    rw [whole, intercalate_concat_nil some] at again
    have clear : ∀ piece ∈ outputLines evaluate (fuel + 1) (lines source), '\n' ∉ piece :=
      fun piece member => stop_notMem_of_mem_pieces
        (whole ▸ List.mem_append_left [[]] member)
    rw [if_neg (not_or.mpr ⟨empty, ends⟩), ← again, if_pos (by simp [endsInBreak, ends]),
      List.dropLast_concat, pieces_intercalate some clear, List.append_nil]

/-! ### Heights -/

theorem groupsFitFrom_cons (fuel : Nat) (line : Text) (rest : List Text) :
    groupsFitFrom evaluate (fuel + 1) (line :: rest) = true ↔
      stepFits evaluate fuel (nextStep line rest).1 = true ∧
        groupsFitFrom evaluate fuel (nextStep line rest).2 = true := by
  rw [← Bool.and_eq_true]
  show (match (nextStep line rest).1 with
      | .across taken => fits evaluate taken
      | .block taken => groupsFitFrom evaluate fuel (nestedLines evaluate taken)
      | _ => true) && _ ↔ _
  cases (nextStep line rest).1 <;> exact Iff.rfl

/-- The text of the lines is never shorter than they are, and as long as they are
when its groups fit. -/
def Tall (fuel : Nat) (source : List Text) : Prop :=
  source.length ≤ (outputLines evaluate fuel source).length ∧
    (groupsFitFrom evaluate fuel source = true ↔
      (outputLines evaluate fuel source).length = source.length)

theorem across_tall {taken : List Text} (nonempty : taken ≠ []) (again : Text → Text) :
    taken.length ≤ (emittedLines evaluate again (.across taken)).length ∧
      (fits evaluate taken = true ↔
        (emittedLines evaluate again (.across taken)).length = taken.length) := by
  have some := List.length_pos_of_ne_nil nonempty
  have tall := length_numberedLines (processInlineConditionals evaluate (joinLines taken))
  rw [fits, emittedLines, List.length_append, List.length_replicate]
  generalize processInlineConditionals evaluate (joinLines taken) = processed at tall ⊢
  rw [closing] at tall
  by_cases ends : processed.getLast? = Option.some '\n'
  · rw [if_pos (Or.inr ends), List.length_singleton] at tall
    have broken : endsInBreak processed = true := by simp [endsInBreak, ends]
    simp only [broken, Bool.not_true, Bool.and_false, Bool.false_eq_true, false_iff]
    have inner : (lines processed).length ≠ 0 := by
      intro none
      rw [none] at tall
      obtain ⟨piece, single⟩ := List.length_eq_one_iff.mp tall
      have last := (getLast?_pieces_eq_nil_iff _ processed).mpr (Or.inr ends)
      rw [single, List.getLast?_singleton] at last
      have whole := eq_of_pieces_eq_singleton single
      rw [← whole, Option.some.inj last] at ends
      exact absurd ends (by simp)
    omega
  · have unbroken : endsInBreak processed = false := by simp [endsInBreak, ends]
    simp only [unbroken, Bool.not_false, Bool.and_true, decide_eq_true_eq]
    by_cases empty : processed = []
    · rw [if_pos (Or.inl empty), List.length_singleton] at tall
      have none : (lines processed).length = 0 := by rw [empty]; rfl
      omega
    · rw [if_neg (not_or.mpr ⟨empty, ends⟩), List.length_nil] at tall
      have positive := List.length_pos_of_ne_nil (pieces_ne_nil '\n' processed)
      omega

theorem nestedLines_of_empty {block : List Text} (empty : selected evaluate block = []) :
    nestedLines evaluate block = [] := by
  rw [nestedLines, empty]
  rfl

/-- A block adds to its own height what its nested round adds. -/
theorem block_length {fuel : Nat} {taken : List Text} (nonempty : taken ≠ [])
    (clear : ∀ line ∈ taken, '\n' ∉ line) (enough : (nestedLines evaluate taken).length < fuel) :
    (emittedLines evaluate (againWith evaluate fuel) (.block taken)).length +
        (nestedLines evaluate taken).length =
      taken.length + (outputLines evaluate fuel (nestedLines evaluate taken)).length := by
  have some := List.length_pos_of_ne_nil nonempty
  have left := selected_length evaluate taken
  rw [emittedLines]
  by_cases empty : selected evaluate taken = []
  · rw [nestedLines_of_empty evaluate empty, outputLines_nil, empty]
    simp only [List.isEmpty_nil, if_true, List.length_cons, List.length_append,
      List.length_replicate, List.length_nil]
    omega
  · have unempty : (selected evaluate taken).isEmpty = false := by simp [empty]
    have inner := congrArg List.length (nestedLines_eq evaluate clear empty)
    have tall := congrArg List.length (pieces_againWith evaluate enough)
    have positive := List.length_pos_of_ne_nil empty
    rw [List.length_append, List.length_map, List.length_map] at inner
    rw [List.length_append] at tall
    simp only [unempty, Bool.false_eq_true, if_false, List.length_cons, List.length_append,
      List.length_replicate]
    rw [show lines (joinLines (selected evaluate taken)) = nestedLines evaluate taken from rfl]
      at tall
    omega

theorem step_tall {fuel : Nat}
    (again : ∀ source : List Text, source.length < fuel → (∀ line ∈ source, '\n' ∉ line) →
      Tall evaluate fuel source)
    {step : Step} (nonempty : step.taken ≠ []) (short : step.taken.length ≤ fuel)
    (clear : ∀ line ∈ step.taken, '\n' ∉ line) :
    step.taken.length ≤ (emittedLines evaluate (againWith evaluate fuel) step).length ∧
      (stepFits evaluate fuel step = true ↔
        (emittedLines evaluate (againWith evaluate fuel) step).length = step.taken.length) := by
  cases step with
  | across taken => exact across_tall evaluate nonempty _
  | inline line => exact ⟨Nat.le_refl _, by simp [stepFits, emittedLines, Step.taken]⟩
  | block taken =>
      replace nonempty : taken ≠ [] := nonempty
      replace short : taken.length ≤ fuel := short
      replace clear : ∀ line ∈ taken, '\n' ∉ line := clear
      have some := List.length_pos_of_ne_nil nonempty
      have left := selected_length evaluate taken
      have fewer := nestedLines_length_le evaluate clear
      have enough : (nestedLines evaluate taken).length < fuel := by omega
      have inner := again (nestedLines evaluate taken) enough fun line => break_notMem_lines
      have tall := block_length evaluate nonempty clear enough
      obtain ⟨atLeast, exactly⟩ := inner
      show taken.length ≤ _ ∧ (groupsFitFrom evaluate fuel (nestedLines evaluate taken) = true ↔
        _ = taken.length)
      rw [exactly]
      omega
  | dropped line => exact ⟨Nat.le_refl _, by simp [stepFits, emittedLines, Step.taken]⟩
  | regular line => exact ⟨Nat.le_refl _, by simp [stepFits, emittedLines, Step.taken]⟩

theorem tall : ∀ (fuel : Nat) (source : List Text), source.length < fuel →
    (∀ line ∈ source, '\n' ∉ line) → Tall evaluate fuel source
  | 0, _, enough, _ => absurd enough (Nat.not_lt_zero _)
  | fuel + 1, [], _, _ => ⟨Nat.le_refl _, by simp [groupsFitFrom, outputLines]⟩
  | fuel + 1, line :: rest, enough, clear => by
      have shape := taken_append line rest
      have lengths := taken_length line rest
      have some := List.length_pos_of_ne_nil (taken_ne_nil line rest)
      rw [List.length_cons] at enough
      have step := step_tall evaluate (tall fuel) (taken_ne_nil line rest) (by omega)
        fun other member => clear other (shape ▸ List.mem_append_left _ member)
      have later := tall fuel (nextStep line rest).2 (by omega)
        fun other member => clear other (shape ▸ List.mem_append_right _ member)
      obtain ⟨stepAtLeast, stepExactly⟩ := step
      obtain ⟨restAtLeast, restExactly⟩ := later
      rw [Tall, groupsFitFrom_cons, stepExactly, restExactly, outputLines, List.length_append,
        List.length_cons]
      omega

/-! ### Kept lines -/

def InPlace (source output : List Text) (number : Nat) : Prop :=
  ∃ line out, source[number]? = some line ∧ output[number]? = some out ∧
    bare out = bare line ∧ bare line ≠ []

theorem getElem?_append_of_some {first more : List Text} {number : Nat} {line : Text}
    (found : first[number]? = some line) : (first ++ more)[number]? = some line := by
  rw [List.getElem?_append_left (List.getElem?_eq_some_iff.mp found).1]
  exact found

theorem getElem?_of_dropLast {block : List Text} {number : Nat} {line : Text}
    (found : block.dropLast[number]? = some line) : block[number]? = some line := by
  rw [List.getElem?_dropLast] at found
  split_ifs at found
  exact found

theorem inPlace_block {fuel : Nat} {taken : List Text} {number : Nat}
    (clear : ∀ line ∈ taken, '\n' ∉ line) (enough : (nestedLines evaluate taken).length < fuel)
    (inner : InPlace (nestedLines evaluate taken)
      (outputLines evaluate fuel (nestedLines evaluate taken)) number) :
    InPlace taken (emittedLines evaluate (againWith evaluate fuel) (.block taken))
      (1 + number) := by
  obtain ⟨line, out, isLine, isOut, same, holds⟩ := inner
  have nonempty : selected evaluate taken ≠ [] := by
    intro empty
    rw [nestedLines_of_empty evaluate empty] at isLine
    exact absurd isLine (by simp)
  -- The line another round reads is the entry of the block, and that is its line.
  have isBare : ((selected evaluate taken).map bare)[number]? = some (bare line) := by
    rw [← nestedLines_eq evaluate clear nonempty]
    apply getElem?_append_of_some
    rw [List.getElem?_map, isLine]
    rfl
  rw [List.getElem?_map] at isBare
  obtain ⟨entry, isEntry, sameEntry⟩ := Option.map_eq_some_iff.mp isBare
  obtain ⟨origin, isOrigin, choice⟩ :=
    getElem?_of_forall₂ (selected_forall₂ evaluate taken) isEntry
  have isSource : entry = origin := by
    rcases choice with rfl | equal
    · exact absurd (sameEntry.symm.trans rfl) holds
    · exact equal
  have atSource : taken[1 + number]? = some origin := by
    have inTail : taken.tail[number]? = some origin := getElem?_of_dropLast isOrigin
    rwa [List.getElem?_tail, Nat.add_comm] at inTail
  have atOutput : (emittedLines evaluate (againWith evaluate fuel) (.block taken))[1 + number]? =
      some out := by
    have unempty : (selected evaluate taken).isEmpty = false := by simp [nonempty]
    rw [emittedLines, unempty, if_neg Bool.false_ne_true, Nat.add_comm 1 number, List.cons_append,
      List.getElem?_cons_succ]
    apply getElem?_append_of_some
    rw [pieces_againWith evaluate enough]
    exact getElem?_append_of_some isOut
  exact ⟨origin, out, atSource, atOutput, by rw [same, ← sameEntry, isSource],
    by rw [← isSource, sameEntry]; exact holds⟩

theorem inPlace_shift {source output before after : List Text} {number : Nat}
    (aligned : after.length = before.length) (inner : InPlace source output number) :
    InPlace (before ++ source) (after ++ output) (before.length + number) := by
  obtain ⟨line, out, isLine, isOut, same, holds⟩ := inner
  refine ⟨line, out, ?_, ?_, same, holds⟩
  · rw [List.getElem?_append_right (Nat.le_add_right _ _), Nat.add_sub_cancel_left]
    exact isLine
  · rw [← aligned, List.getElem?_append_right (Nat.le_add_right _ _), Nat.add_sub_cancel_left]
    exact isOut

theorem inPlace_append {source output more rest : List Text} {number : Nat}
    (inner : InPlace source output number) : InPlace (source ++ more) (output ++ rest) number := by
  obtain ⟨line, out, isLine, isOut, same, holds⟩ := inner
  exact ⟨line, out, getElem?_append_of_some isLine, getElem?_append_of_some isOut, same, holds⟩

def stepKept (fuel : Nat) : Step → List Nat
  | .regular line => if (bare line).isEmpty then [] else [0]
  | .block taken => (keptFrom evaluate fuel (nestedLines evaluate taken)).map (1 + ·)
  | _ => []

theorem keptFrom_cons (fuel : Nat) (line : Text) (rest : List Text) :
    keptFrom evaluate (fuel + 1) (line :: rest) =
      stepKept evaluate fuel (nextStep line rest).1 ++
        (keptFrom evaluate fuel (nextStep line rest).2).map
          ((nextStep line rest).1.taken.length + ·) := by
  rw [keptFrom]
  cases (nextStep line rest).1 <;> rfl

theorem kept_inPlace : ∀ (fuel : Nat) (source : List Text), source.length < fuel →
    (∀ line ∈ source, '\n' ∉ line) → groupsFitFrom evaluate fuel source = true →
    ∀ number ∈ keptFrom evaluate fuel source,
      InPlace source (outputLines evaluate fuel source) number
  | 0, _, enough, _, _, _, _ => absurd enough (Nat.not_lt_zero _)
  | fuel + 1, [], _, _, _, number, member => absurd member List.not_mem_nil
  | fuel + 1, line :: rest, enough, clear, fit, number, member => by
      have shape := taken_append line rest
      have lengths := taken_length line rest
      have some := List.length_pos_of_ne_nil (taken_ne_nil line rest)
      have clearTaken : ∀ other ∈ (nextStep line rest).1.taken, '\n' ∉ other :=
        fun other member => clear other (shape ▸ List.mem_append_left _ member)
      have clearRest : ∀ other ∈ (nextStep line rest).2, '\n' ∉ other :=
        fun other member => clear other (shape ▸ List.mem_append_right _ member)
      rw [List.length_cons] at enough
      obtain ⟨stepFit, restFit⟩ := (groupsFitFrom_cons evaluate fuel line rest).mp fit
      have aligned := (step_tall evaluate (tall evaluate fuel) (taken_ne_nil line rest)
        (by omega) clearTaken).2.mp stepFit
      rw [outputLines, ← shape]
      rw [keptFrom_cons] at member
      rcases List.mem_append.mp member with here | later
      · apply inPlace_append
        generalize (nextStep line rest).1 = step at *
        cases step with
        | regular line =>
            rw [stepKept] at here
            split_ifs at here with empty
            · exact absurd here List.not_mem_nil
            · rw [List.mem_singleton.mp here]
              exact ⟨line, line, rfl, rfl, rfl, fun none => empty (by rw [none]; rfl)⟩
        | block taken =>
            obtain ⟨inner, isInner, rfl⟩ := List.mem_map.mp here
            replace clearTaken : ∀ other ∈ taken, '\n' ∉ other := clearTaken
            replace some : 0 < taken.length := some
            have left := selected_length evaluate taken
            have fewer := nestedLines_length_le evaluate clearTaken
            replace lengths : taken.length + _ = rest.length + 1 := lengths
            have short : (nestedLines evaluate taken).length < fuel := by omega
            exact inPlace_block evaluate clearTaken short
              (kept_inPlace fuel _ short (fun line => break_notMem_lines) stepFit inner isInner)
        | across taken => exact absurd here List.not_mem_nil
        | inline line => exact absurd here List.not_mem_nil
        | dropped line => exact absurd here List.not_mem_nil
      · obtain ⟨inner, isInner, rfl⟩ := List.mem_map.mp later
        exact inPlace_shift aligned
          (kept_inPlace fuel _ (by omega) clearRest restFit inner isInner)

/-! ### The numbers of the lines -/

theorem numberedLines_preprocessWith (source : Text) :
    numberedLines (preprocessWith evaluate source) =
      (outputLines evaluate ((lines source).length + 1) (lines source)).map bare ++
        closing source := by
  have whole := pieces_againWith evaluate (Nat.lt_add_one (lines source).length)
  have same : (closing source).map bare = closing source := by
    rw [closing]
    split_ifs <;> rfl
  rw [numberedLines, show preprocessWith evaluate source =
    againWith evaluate ((lines source).length + 1) source from rfl, whole, List.map_append, same]

theorem numbersKept_iff (source : Text) :
    NumbersKept source (preprocessWith evaluate source) (keptLines evaluate source) ↔
      GroupsFit evaluate source := by
  have clear : ∀ line ∈ lines source, '\n' ∉ line := fun line => break_notMem_lines
  have height := tall evaluate _ _ (Nat.lt_add_one (lines source).length) clear
  constructor
  · intro kept
    have count := kept.count
    rw [numberedLines_preprocessWith, numberedLines_eq, List.length_append, List.length_append,
      List.length_map, List.length_map] at count
    exact height.2.mpr (by omega)
  · intro fit
    constructor
    · rw [numberedLines_preprocessWith, numberedLines_eq, List.length_append, List.length_append,
        List.length_map, List.length_map, height.2.mp fit]
    · intro number member
      obtain ⟨line, out, isLine, isOut, same, _⟩ :=
        kept_inPlace evaluate _ _ (Nat.lt_add_one (lines source).length) clear fit number member
      refine ⟨bare line, ?_, ?_⟩
      · rw [numberedLines_eq]
        apply getElem?_append_of_some
        rw [List.getElem?_map, isLine]
        rfl
      · rw [numberedLines_preprocessWith]
        apply getElem?_append_of_some
        rw [List.getElem?_map, isOut]
        exact congrArg some same

/-- The text in front of an `#if` without an `#end` comes out twice, and with it
the line breaks in it. -/
def openGroup : Text := "x #if a #if b y #end\n#end #end #if z w\nq".toList

def noDefines : PreprocessorConfig := ⟨[], Library.OrdMap.empty⟩

end Rayzor.Parser
