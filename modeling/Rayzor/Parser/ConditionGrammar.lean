import Rayzor.Parser.Conditions

/-!
Contract: the conditions of conditional compilation against their grammar.

Owns: the grammar of conditions with the value of each parse, the looser grammar
of what the parsers read without an error, and when a condition outside the
grammar is false.
-/

namespace Rayzor.Parser

open Library (OrdMap)

/-- The rules of the grammar, loosest first. -/
inductive Level where
  | or
  | and
  | unary
  | primary

/-- Tokens read by a rule: where the reading ends, and its value. Chains are read from the
right, which gives them the same value. The loosened grammar has three more rules: an
operand is missing, a parenthesis is open at the end, a comparison has no right side. -/
inductive Reads (lenient : Bool) (config : PreprocessorConfig) :
    Level → List CondToken → List CondToken → Bool → Prop where
  | orOne {tokens rest : List CondToken} {value : Bool}
      (operand : Reads lenient config .and tokens rest value) :
      Reads lenient config .or tokens rest value
  | orMore {tokens middle rest : List CondToken} {value later : Bool}
      (operand : Reads lenient config .and tokens (.or :: middle) value)
      (others : Reads lenient config .or middle rest later) :
      Reads lenient config .or tokens rest (value || later)
  | andOne {tokens rest : List CondToken} {value : Bool}
      (operand : Reads lenient config .unary tokens rest value) :
      Reads lenient config .and tokens rest value
  | andMore {tokens middle rest : List CondToken} {value later : Bool}
      (operand : Reads lenient config .unary tokens (.and :: middle) value)
      (others : Reads lenient config .and middle rest later) :
      Reads lenient config .and tokens rest (value && later)
  | not {tokens rest : List CondToken} {value : Bool}
      (operand : Reads lenient config .unary tokens rest value) :
      Reads lenient config .unary (.not :: tokens) rest (!value)
  | plain {tokens rest : List CondToken} {value : Bool}
      (operand : Reads lenient config .primary tokens rest value) :
      Reads lenient config .unary tokens rest value
  | parens {tokens rest : List CondToken} {value : Bool}
      (inner : Reads lenient config .or tokens (.rParen :: rest) value) :
      Reads lenient config .primary (.lParen :: tokens) rest value
  | value {tokens rest : List CondToken} {left : ConditionValue}
      (read : conditionValue config tokens = some (left, rest)) :
      Reads lenient config .primary tokens rest left.truthy
  | compare {tokens middle rest : List CondToken} {left right : ConditionValue}
      {operator : Char} {equal : Bool}
      (read : conditionValue config tokens = some (left, .compare operator equal :: middle))
      (readRight : conditionValue config middle = some (right, rest)) :
      Reads lenient config .primary tokens rest
        (comparison operator equal (left.compare right))
  | missing {tokens : List CondToken} (loose : lenient = true) :
      Reads lenient config .primary tokens tokens false
  | unclosed {tokens : List CondToken} {value : Bool} (loose : lenient = true)
      (inner : Reads lenient config .or tokens [] value) :
      Reads lenient config .primary (.lParen :: tokens) [] false
  | noRight {tokens rest : List CondToken} {left : ConditionValue} {operator : Char}
      {equal : Bool} (loose : lenient = true)
      (read : conditionValue config tokens = some (left, .compare operator equal :: rest)) :
      Reads lenient config .primary tokens rest false

def InGrammar (config : PreprocessorConfig) (tokens : List CondToken) (value : Bool) : Prop :=
  Reads false config .or tokens [] value

def LooselyTrue (config : PreprocessorConfig) (tokens : List CondToken) : Prop :=
  Reads true config .or tokens [] true

/-- Evaluation gives a condition of the grammar its value, and anything else false. -/
def FollowsGrammar (classes : CharClasses) (config : PreprocessorConfig) (condition : Text) :
    Prop :=
  (∀ value, InGrammar config (tokenizeCondition classes condition) value →
    evaluateCondition classes config condition = value) ∧
  ((¬∃ value, InGrammar config (tokenizeCondition classes condition) value) →
    evaluateCondition classes config condition = false)

variable {config : PreprocessorConfig} {tokens rest middle : List CondToken} {value : Bool}

theorem conditionValue_some {left : ConditionValue}
    (read : conditionValue config tokens = some (left, rest)) :
    ∃ token, tokens = token :: rest ∧ token ≠ .or ∧ token ≠ .and ∧ token ≠ .rParen ∧
      token ≠ .lParen ∧ token ≠ .not := by
  unfold conditionValue at read
  split at read <;> cases read <;> exact ⟨_, rfl, nofun, nofun, nofun, nofun, nofun⟩

theorem conditionValue_length {left : ConditionValue}
    (read : conditionValue config tokens = some (left, rest)) :
    tokens.length = rest.length + 1 := by
  obtain ⟨token, rfl, -⟩ := conditionValue_some read
  rfl

/-- What may stand behind the reading of a rule where it is part of a whole. -/
def Follow : Level → List CondToken → Prop
  | _, [] => True
  | _, .rParen :: _ => True
  | .or, _ => False
  | .and, .or :: _ => True
  | .and, _ => False
  | _, .or :: _ => True
  | _, .and :: _ => True
  | _, _ => False

theorem Follow.primary {level : Level} (follow : Follow level tokens) :
    Follow .primary tokens := by
  unfold Follow at follow
  split at follow <;> trivial

theorem Follow.and (follow : Follow .or tokens) : Follow .and tokens := by
  unfold Follow at follow
  split at follow <;> trivial

theorem Follow.unary {level : Level} (follow : Follow level tokens) : Follow .unary tokens := by
  unfold Follow at follow
  split at follow <;> trivial

theorem Follow.noValue {level : Level} (follow : Follow level tokens) :
    conditionValue config tokens = none := by
  have here := follow.primary
  unfold Follow at here
  split at here <;> first | rfl | cases here

theorem Follow.noParen {level : Level} (follow : Follow level tokens) :
    tokens ≠ .lParen :: rest := by
  intro same
  have here := follow.primary
  rw [same] at here
  exact here

theorem Follow.noCompare {level : Level} (follow : Follow level tokens) {operator : Char}
    {equal : Bool} : tokens ≠ .compare operator equal :: rest := by
  intro same
  have here := follow.primary
  rw [same] at here
  exact here

section Computed

variable {lenient : Bool} {level : Level}

theorem Reads.shorter (reads : Reads lenient config level tokens rest value) :
    rest.length ≤ tokens.length := by
  induction reads with
  | orOne _ ih | andOne _ ih | plain _ ih =>
      exact ih
  | orMore _ _ first second | andMore _ _ first second =>
      rw [List.length_cons] at first
      omega
  | not _ ih =>
      rw [List.length_cons]
      omega
  | parens _ ih =>
      rw [List.length_cons] at ih ⊢
      omega
  | value read =>
      have := conditionValue_length read
      omega
  | compare read readRight =>
      have left := conditionValue_length read
      have right := conditionValue_length readRight
      rw [List.length_cons] at left
      omega
  | missing => exact le_refl _
  | unclosed => exact Nat.zero_le _
  | noRight _ read =>
      have := conditionValue_length read
      rw [List.length_cons] at this
      omega

/-- The fuel the parser of a rule asks for. -/
def Level.fuel : Level → List CondToken → Nat
  | .or, tokens => 4 * tokens.length + 3
  | .and, tokens => 4 * tokens.length + 2
  | .unary, tokens => 4 * tokens.length + 2
  | .primary, tokens => 4 * tokens.length + 1

/-- The parser of a rule gives that value and what is left. The loops behind an operand are
stated for any value already gathered. -/
def ComputesAt (config : PreprocessorConfig) (fuel : Nat) :
    Level → List CondToken → List CondToken → Bool → Prop
  | .or, tokens, rest, value => ∀ acc,
      parseOrRest config fuel (acc || (parseAnd config fuel tokens).1,
        (parseAnd config fuel tokens).2) = (acc || value, rest)
  | .and, tokens, rest, value => ∀ acc,
      parseAndRest config fuel (acc && (parseUnary config fuel tokens).1,
        (parseUnary config fuel tokens).2) = (acc && value, rest)
  | .unary, tokens, rest, value => parseUnary config fuel tokens = (value, rest)
  | .primary, tokens, rest, value => parsePrimary config fuel tokens = (value, rest)

theorem ComputesAt.parseOr {fuel : Nat} (computes : ComputesAt config fuel .or tokens rest value) :
    parseOr config (fuel + 1) tokens = (value, rest) := by
  rw [Parser.parseOr]
  simpa using computes false

theorem ComputesAt.parseAnd {fuel : Nat}
    (computes : ComputesAt config fuel .and tokens rest value) :
    parseAnd config (fuel + 1) tokens = (value, rest) := by
  rw [Parser.parseAnd]
  simpa using computes true

theorem parseOrRest_of_follow (follow : Follow .or rest) (fuel : Nat) (acc : Bool) :
    parseOrRest config fuel (acc, rest) = (acc, rest) := by
  unfold parseOrRest
  split
  next same =>
    cases same
    cases follow
  next => rfl

theorem parseAndRest_of_follow (follow : Follow .and rest) (fuel : Nat) (acc : Bool) :
    parseAndRest config fuel (acc, rest) = (acc, rest) := by
  unfold parseAndRest
  split
  next same =>
    cases same
    cases follow
  next => rfl

theorem parseOrRest_or (fuel : Nat) (acc : Bool) :
    parseOrRest config (fuel + 1) (acc, .or :: rest) =
      parseOrRest config fuel (acc || (parseAnd config fuel rest).1,
        (parseAnd config fuel rest).2) := by
  rw [parseOrRest]

theorem parseAndRest_and (fuel : Nat) (acc : Bool) :
    parseAndRest config (fuel + 1) (acc, .and :: rest) =
      parseAndRest config fuel (acc && (parseUnary config fuel rest).1,
        (parseUnary config fuel rest).2) := by
  rw [parseAndRest]

/-- Where no negation stands, an operand is parsed. -/
theorem parseUnary_plain (fuel : Nat) (noNot : ∀ others, tokens ≠ .not :: others) :
    parseUnary config (fuel + 1) tokens = parsePrimary config fuel tokens := by
  rw [parseUnary]
  exact noNot

theorem parsePrimary_value (fuel : Nat) {left : ConditionValue}
    (read : conditionValue config tokens = some (left, rest))
    (noCompare : ∀ operator equal others, rest ≠ .compare operator equal :: others) :
    parsePrimary config (fuel + 1) tokens = (left.truthy, rest) := by
  obtain ⟨token, rfl, -, -, -, noParen, -⟩ := conditionValue_some read
  rw [parsePrimary]
  · rw [read]
    split
    next impossible => cases impossible
    next same =>
      cases same
      exact absurd rfl (noCompare _ _ _)
    next same =>
      cases same
      rfl
  · intro others same
    cases same
    exact noParen rfl

theorem parsePrimary_compare (fuel : Nat) {left : ConditionValue} {operator : Char} {equal : Bool}
    (read : conditionValue config tokens = some (left, .compare operator equal :: middle)) :
    parsePrimary config (fuel + 1) tokens =
      match conditionValue config middle with
      | none => (false, middle)
      | some (right, rest) => (comparison operator equal (left.compare right), rest) := by
  obtain ⟨token, rfl, -, -, -, noParen, -⟩ := conditionValue_some read
  rw [parsePrimary]
  · rw [read] <;> rfl
  · intro others same
    cases same
    exact noParen rfl

theorem parsePrimary_missing (fuel : Nat) (noValue : conditionValue config tokens = none)
    (noParen : ∀ others, tokens ≠ .lParen :: others) :
    parsePrimary config (fuel + 1) tokens = (false, tokens) := by
  rw [parsePrimary]
  · rw [noValue]
  · exact noParen

theorem Reads.noNot (reads : Reads lenient config .primary tokens rest value)
    (follow : Follow .primary rest) (others : List CondToken) : tokens ≠ .not :: others := by
  have notHead : ∀ {left after}, conditionValue config tokens = some (left, after) →
      tokens ≠ .not :: others := by
    intro left after read same
    obtain ⟨token, shape, -, -, -, -, isOther⟩ := conditionValue_some read
    rw [same] at shape
    cases shape
    exact isOther rfl
  intro same
  cases reads with
  | parens => cases same
  | value read => exact notHead read same
  | compare read => exact notHead read same
  | missing =>
      rw [same] at follow
      exact follow
  | unclosed => cases same
  | noRight _ read => exact notHead read same

theorem Level.fuel_pred {fuel : Nat} (enough : level.fuel tokens ≤ fuel) :
    ∃ less, fuel = less + 1 := by
  apply Nat.exists_eq_succ_of_ne_zero
  cases level <;> simp only [Level.fuel] at enough <;> omega

/-- A reading that may be part of a whole is what the parser computes. -/
theorem Reads.computes (reads : Reads lenient config level tokens rest value)
    (follow : Follow level rest) (fuel : Nat) (enough : level.fuel tokens ≤ fuel) :
    ComputesAt config fuel level tokens rest value := by
  induction reads generalizing fuel with
  | orOne _ ih =>
      intro acc
      obtain ⟨fuel, rfl⟩ := Level.fuel_pred enough
      rw [(ih follow.and _ (Nat.le_of_succ_le_succ enough)).parseAnd,
        parseOrRest_of_follow follow]
  | orMore first second firstHypothesis secondHypothesis =>
      intro acc
      have shorter := first.shorter
      rw [List.length_cons] at shorter
      obtain ⟨fuel, rfl⟩ := Level.fuel_pred enough
      rw [(firstHypothesis trivial _ (Nat.le_of_succ_le_succ enough)).parseAnd, parseOrRest_or,
        secondHypothesis follow _ (by simp only [Level.fuel] at enough ⊢; omega), Bool.or_assoc]
  | andOne _ ih =>
      intro acc
      have operand := ih follow.unary _ enough
      rw [ComputesAt] at operand
      rw [operand, parseAndRest_of_follow follow]
  | andMore first second firstHypothesis secondHypothesis =>
      intro acc
      have shorter := first.shorter
      rw [List.length_cons] at shorter
      have operand := firstHypothesis trivial _ enough
      rw [ComputesAt] at operand
      rw [operand]
      obtain ⟨fuel, rfl⟩ := Level.fuel_pred enough
      rw [parseAndRest_and, secondHypothesis follow _ (by simp only [Level.fuel] at enough ⊢; omega),
        Bool.and_assoc]
  | not _ ih =>
      obtain ⟨fuel, rfl⟩ := Level.fuel_pred enough
      have operand := ih follow fuel
        (by simp only [Level.fuel, List.length_cons] at enough ⊢; omega)
      rw [ComputesAt] at operand ⊢
      rw [parseUnary, operand]
  | plain operand ih =>
      obtain ⟨fuel, rfl⟩ := Level.fuel_pred enough
      have parsed : parsePrimary config fuel _ = _ :=
        ih follow.primary _ (Nat.le_of_succ_le_succ enough)
      exact (parseUnary_plain fuel (operand.noNot follow.primary)).trans parsed
  | parens _ ih =>
      simp only [Level.fuel, List.length_cons] at enough
      obtain ⟨fuel, rfl⟩ : ∃ less, fuel = less + 2 := ⟨fuel - 2, by omega⟩
      have inner := ih trivial fuel (by simp only [Level.fuel]; omega)
      rw [ComputesAt, parsePrimary, inner.parseOr]
  | value read =>
      obtain ⟨fuel, rfl⟩ := Level.fuel_pred enough
      exact parsePrimary_value fuel read fun _ _ _ => follow.noCompare
  | compare read readRight =>
      obtain ⟨fuel, rfl⟩ := Level.fuel_pred enough
      rw [ComputesAt, parsePrimary_compare fuel read, readRight]
  | missing =>
      obtain ⟨fuel, rfl⟩ := Level.fuel_pred enough
      exact parsePrimary_missing fuel follow.noValue fun _ => follow.noParen
  | unclosed _ _ ih =>
      simp only [Level.fuel, List.length_cons] at enough
      obtain ⟨fuel, rfl⟩ : ∃ less, fuel = less + 2 := ⟨fuel - 2, by omega⟩
      have inner := ih trivial fuel (by simp only [Level.fuel]; omega)
      rw [ComputesAt, parsePrimary, inner.parseOr]
  | noRight _ read =>
      obtain ⟨fuel, rfl⟩ := Level.fuel_pred enough
      rw [ComputesAt, parsePrimary_compare fuel read, follow.noValue]

/-- The parser of a rule computes a reading of the loosened grammar, unless it stops at a token
that nothing behind the rule reads. -/
def Accounts (config : PreprocessorConfig) (fuel : Nat) (level : Level)
    (tokens : List CondToken) : Prop :=
  ∃ value rest, ComputesAt config fuel level tokens rest value ∧ rest.length ≤ tokens.length ∧
    (Follow .primary rest → Reads true config level tokens rest value ∧ Follow level rest)

def AccountsBelow (config : PreprocessorConfig) (fuel : Nat) : Prop :=
  ∀ less < fuel, ∀ level tokens, Level.fuel level tokens ≤ less → Accounts config less level tokens

variable {fuel : Nat}

theorem Accounts.parens (below : AccountsBelow config (fuel + 1))
    (enough : Level.fuel .primary (.lParen :: tokens) ≤ fuel + 1) :
    Accounts config (fuel + 1) .primary (.lParen :: tokens) := by
  simp only [Level.fuel, List.length_cons] at enough
  obtain ⟨fuel, rfl⟩ : ∃ less, fuel = less + 1 := ⟨fuel - 1, by omega⟩
  obtain ⟨value, rest, computes, shorter, reads⟩ :=
    below fuel (by omega) .or tokens (by simp only [Level.fuel]; omega)
  have inner := computes.parseOr
  cases rest with
  | nil =>
      refine ⟨false, [], ?_, Nat.zero_le _, fun _ => ⟨.unclosed rfl (reads trivial).1, trivial⟩⟩
      rw [ComputesAt, parsePrimary, inner]
  | cons token rest =>
      by_cases closes : token = .rParen
      · subst closes
        refine ⟨value, rest, ?_, ?_, fun follow => ⟨.parens (reads trivial).1, follow⟩⟩
        · rw [ComputesAt, parsePrimary, inner]
        · rw [List.length_cons] at shorter ⊢
          omega
      · refine ⟨false, token :: rest, ?_, Nat.le_succ_of_le shorter, fun follow => ?_⟩
        · rw [ComputesAt, parsePrimary, inner]
          split
          next same => exact absurd (by cases same; rfl) closes
          next same => cases same; rfl
        · have after := (reads follow).2
          cases token <;> first | exact absurd rfl closes | cases after

theorem Accounts.operand (noParen : ∀ others, tokens ≠ .lParen :: others) :
    Accounts config (fuel + 1) .primary tokens := by
  cases read : conditionValue config tokens with
  | none =>
      exact ⟨false, tokens, parsePrimary_missing fuel read noParen, le_refl _,
        fun follow => ⟨.missing rfl, follow⟩⟩
  | some found =>
      obtain ⟨left, rest⟩ := found
      have length := conditionValue_length read
      by_cases compares : ∃ operator equal others, rest = .compare operator equal :: others
      · obtain ⟨operator, equal, others, rfl⟩ := compares
        have parsed := parsePrimary_compare fuel read
        rw [List.length_cons] at length
        cases readRight : conditionValue config others with
        | none =>
            rw [readRight] at parsed
            exact ⟨false, others, parsed, by omega, fun follow => ⟨.noRight rfl read, follow⟩⟩
        | some found =>
            obtain ⟨right, after⟩ := found
            have lengthRight := conditionValue_length readRight
            rw [readRight] at parsed
            exact ⟨_, after, parsed, by omega, fun follow => ⟨.compare read readRight, follow⟩⟩
      · push Not at compares
        exact ⟨_, rest, parsePrimary_value fuel read compares, by omega,
          fun follow => ⟨.value read, follow⟩⟩

theorem Accounts.unary (below : AccountsBelow config (fuel + 1))
    (enough : Level.fuel .unary tokens ≤ fuel + 1) :
    Accounts config (fuel + 1) .unary tokens := by
  by_cases negates : ∃ others, tokens = .not :: others
  · obtain ⟨others, rfl⟩ := negates
    simp only [Level.fuel, List.length_cons] at enough
    obtain ⟨value, rest, computes, shorter, reads⟩ :=
      below fuel (Nat.lt_succ_self fuel) .unary others (by simp only [Level.fuel]; omega)
    rw [ComputesAt] at computes
    refine ⟨!value, rest, ?_, Nat.le_succ_of_le shorter, fun follow =>
      ⟨.not (reads follow).1, (reads follow).2⟩⟩
    rw [ComputesAt, parseUnary, computes]
  · push Not at negates
    obtain ⟨value, rest, computes, shorter, reads⟩ :=
      below fuel (Nat.lt_succ_self fuel) .primary tokens (Nat.le_of_succ_le_succ enough)
    refine ⟨value, rest, (parseUnary_plain fuel negates).trans computes, shorter, fun follow =>
      ⟨.plain (reads follow).1, (reads follow).2.unary⟩⟩

theorem Accounts.and (below : AccountsBelow config (fuel + 1))
    (enough : Level.fuel .and tokens ≤ fuel + 1)
    (operand : Accounts config (fuel + 1) .unary tokens) :
    Accounts config (fuel + 1) .and tokens := by
  obtain ⟨value, rest, computes, shorter, reads⟩ := operand
  rw [ComputesAt] at computes
  by_cases more : ∃ others, rest = .and :: others
  · obtain ⟨others, rfl⟩ := more
    rw [List.length_cons] at shorter
    obtain ⟨later, after, loops, shorter', reads'⟩ := below fuel (Nat.lt_succ_self fuel) .and others
      (by simp only [Level.fuel] at enough ⊢; omega)
    refine ⟨value && later, after, fun acc => ?_, by omega, fun follow =>
      ⟨.andMore (reads trivial).1 (reads' follow).1, (reads' follow).2⟩⟩
    rw [computes, parseAndRest_and, loops, Bool.and_assoc]
  · push Not at more
    refine ⟨value, rest, fun acc => ?_, shorter, fun follow => ⟨.andOne (reads follow).1, ?_⟩⟩
    · rw [computes]
      unfold parseAndRest
      split
      next same =>
        cases same
        exact absurd rfl (more _)
      next => rfl
    · unfold Follow at follow
      split at follow <;> first | trivial | exact absurd rfl (more _)

theorem Accounts.or (below : AccountsBelow config (fuel + 1))
    (enough : Level.fuel .or tokens ≤ fuel + 1) : Accounts config (fuel + 1) .or tokens := by
  obtain ⟨value, rest, computes, shorter, reads⟩ :=
    below fuel (Nat.lt_succ_self fuel) .and tokens (Nat.le_of_succ_le_succ enough)
  have parsed := computes.parseAnd
  by_cases more : ∃ others, rest = .or :: others
  · obtain ⟨others, rfl⟩ := more
    rw [List.length_cons] at shorter
    obtain ⟨later, after, loops, shorter', reads'⟩ := below fuel (Nat.lt_succ_self fuel) .or others
      (by simp only [Level.fuel] at enough ⊢; omega)
    refine ⟨value || later, after, fun acc => ?_, by omega, fun follow =>
      ⟨.orMore (reads trivial).1 (reads' follow).1, (reads' follow).2⟩⟩
    rw [parsed, parseOrRest_or, loops, Bool.or_assoc]
  · push Not at more
    refine ⟨value, rest, fun acc => ?_, shorter, fun follow => ⟨.orOne (reads follow).1, ?_⟩⟩
    · rw [parsed]
      unfold parseOrRest
      split
      next same =>
        cases same
        exact absurd rfl (more _)
      next => rfl
    · have after := (reads follow).2
      unfold Follow at after
      split at after <;> first | trivial | exact absurd rfl (more _)

theorem accounts (fuel : Nat) (level : Level) (tokens : List CondToken)
    (enough : level.fuel tokens ≤ fuel) : Accounts config fuel level tokens := by
  induction fuel using Nat.strong_induction_on generalizing level tokens with
  | _ fuel ih =>
      have below : AccountsBelow config fuel := fun less isLess level tokens enough =>
        ih less isLess level tokens enough
      obtain ⟨fuel, rfl⟩ := Level.fuel_pred enough
      cases level with
      | or => exact Accounts.or below enough
      | and => exact Accounts.and below enough (Accounts.unary below enough)
      | unary => exact Accounts.unary below enough
      | primary =>
          by_cases opens : ∃ others, tokens = .lParen :: others
          · obtain ⟨others, rfl⟩ := opens
            exact Accounts.parens below enough
          · push Not at opens
            exact Accounts.operand opens

end Computed

theorem evaluateTokens_of_reads {lenient : Bool}
    (reads : Reads lenient config .or tokens [] value) : evaluateTokens config tokens = value := by
  have computes := reads.computes trivial (8 * tokens.length + 7)
    (by simp only [Level.fuel]; omega)
  unfold evaluateTokens
  rw [computes.parseOr]
  simp

theorem evaluateTokens_iff : evaluateTokens config tokens = true ↔ LooselyTrue config tokens := by
  refine ⟨fun isTrue => ?_, evaluateTokens_of_reads⟩
  obtain ⟨value, rest, computes, -, reads⟩ := @accounts config
    (8 * tokens.length + 7) .or tokens (by simp only [Level.fuel]; omega)
  unfold evaluateTokens at isTrue
  rw [computes.parseOr, Bool.and_eq_true, List.isEmpty_iff] at isTrue
  obtain ⟨rfl, rfl⟩ := isTrue
  exact (reads trivial).1

/-- A condition is evaluated by its grammar unless it is outside it and the loosened grammar
reads it as true. -/
theorem followsGrammar_iff (classes : CharClasses) (config : PreprocessorConfig)
    (condition : Text) :
    FollowsGrammar classes config condition ↔
      (∃ value, InGrammar config (tokenizeCondition classes condition) value) ∨
        ¬LooselyTrue config (tokenizeCondition classes condition) := by
  unfold FollowsGrammar evaluateCondition
  rw [← evaluateTokens_iff, Bool.not_eq_true]
  constructor
  · intro follows
    by_cases inside : ∃ value, InGrammar config (tokenizeCondition classes condition) value
    · exact Or.inl inside
    · exact Or.inr (follows.2 inside)
  · intro condition
    refine ⟨fun value reads => evaluateTokens_of_reads reads, fun outside => ?_⟩
    exact condition.resolve_left outside

theorem Reads.consumes {level : Level} (reads : Reads false config level tokens rest value) :
    rest.length < tokens.length := by
  induction reads with
  | orOne _ ih | andOne _ ih | plain _ ih =>
      exact ih
  | orMore _ _ first second | andMore _ _ first second =>
      rw [List.length_cons] at first
      omega
  | not _ ih =>
      rw [List.length_cons]
      omega
  | parens _ ih =>
      rw [List.length_cons] at ih ⊢
      omega
  | value read =>
      have := conditionValue_length read
      omega
  | compare read readRight =>
      have left := conditionValue_length read
      have right := conditionValue_length readRight
      rw [List.length_cons] at left
      omega
  | missing loose | unclosed loose | noRight loose => cases loose

theorem not_reads_nil {level : Level} : ¬Reads false config level [] rest value :=
  fun reads => Nat.not_lt_zero _ reads.consumes

theorem not_reads_lone_negation : ¬Reads false config .unary [.not] rest value := by
  intro reads
  cases reads with
  | not operand => exact not_reads_nil operand
  | plain operand =>
      cases operand with
      | value read => cases read
      | compare read => cases read
      | missing loose => cases loose
      | noRight loose => cases loose

/-- A negation of nothing is true. -/
theorem lone_negation_true : ¬FollowsGrammar asciiClasses ⟨[], OrdMap.empty⟩ ['!'] := by
  intro follows
  have isTrue : evaluateCondition asciiClasses ⟨[], OrdMap.empty⟩ ['!'] = true := by
    decide +kernel
  have outside : ¬∃ value, InGrammar ⟨[], OrdMap.empty⟩ [.not] value := by
    rintro ⟨value, reads⟩
    have noAnd : ∀ rest value, ¬Reads false ⟨[], OrdMap.empty⟩ .and [.not] rest value := by
      intro rest value reads
      cases reads with
      | andOne operand => exact not_reads_lone_negation operand
      | andMore operand => exact not_reads_lone_negation operand
    cases reads with
    | orOne operand => exact noAnd _ _ operand
    | orMore operand => exact noAnd _ _ operand
  have isFalse := follows.2 outside
  rw [isTrue] at isFalse
  cases isFalse

end Rayzor.Parser
