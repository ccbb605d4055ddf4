import Mathlib.Data.List.Forall2
import Rayzor.Switches.Patterns

/-!
Contract: the exhaustiveness check of a switch over an enum or `Bool`.
-/

namespace Rayzor.Switches

open Library

abbrev NameSet := OrdMap InternedString Unit

/-! ### The check -/

inductive TypeKind where
  | enum (symbolId : SymbolId)
  | genericInstance (baseType : TypeId)
  | bool
  | other

structure HirToMirContext where
  typeTable : OrdMap TypeId TypeKind
  /-- The names of the symbols. -/
  symbols : OrdMap SymbolId InternedString
  enumVariants : OrdMap SymbolId (List SymbolId)
  stringInterner : OrdMap InternedString String

structure Coverage where
  covered : NameSet
  hasWildcard : Bool

mutual

def collectVariantsFromPattern (hasGuard : Bool) : HirPattern → Coverage → Coverage
  | .constructor _ variant _, coverage =>
      if hasGuard then coverage
      else { coverage with covered := coverage.covered.insert variant () }
  | .wildcard, coverage => if hasGuard then coverage else { coverage with hasWildcard := true }
  | .variable _ _, coverage => if hasGuard then coverage else { coverage with hasWildcard := true }
  | .or alternatives, coverage => collectVariantsFromPatterns hasGuard alternatives coverage
  | .guard _, coverage => coverage
  | .typed pattern _, coverage => collectVariantsFromPattern hasGuard pattern coverage
  | .literal _, coverage | .tuple _, coverage | .array _ _, coverage | .object _ _, coverage =>
      coverage

def collectVariantsFromPatterns (hasGuard : Bool) : List HirPattern → Coverage → Coverage
  | [], coverage => coverage
  | pattern :: patterns, coverage =>
      collectVariantsFromPatterns hasGuard patterns
        (collectVariantsFromPattern hasGuard pattern coverage)

end

def collectCoveredEnumVariants (cases : List HirMatchCase) : Coverage :=
  cases.foldl (fun coverage case =>
    collectVariantsFromPatterns case.hasGuard case.patterns coverage) ⟨OrdMap.empty, false⟩

/-- The truth values covered so far. -/
structure BoolCoverage where
  hasTrue : Bool
  hasFalse : Bool
  hasWildcard : Bool

/-- A pattern that is looked at as it stands. -/
def BoolCoverage.add (coverage : BoolCoverage) : HirPattern → BoolCoverage
  | .literal (.bool true) => { coverage with hasTrue := true }
  | .literal (.bool false) => { coverage with hasFalse := true }
  | .wildcard => { coverage with hasWildcard := true }
  | .variable _ _ => { coverage with hasWildcard := true }
  | _ => coverage

/-- The patterns of a case, and the alternatives of one, but nothing deeper. -/
def BoolCoverage.addPattern (coverage : BoolCoverage) : HirPattern → BoolCoverage
  | .or alternatives => alternatives.foldl BoolCoverage.add coverage
  | pattern => coverage.add pattern

def collectBools (cases : List HirMatchCase) : BoolCoverage :=
  cases.foldl (fun coverage case =>
    if case.hasGuard then coverage else case.patterns.foldl BoolCoverage.addPattern coverage)
    ⟨false, false, false⟩

/-- What a switch is warned about. -/
inductive Warning where
  | variants (enumName : String) (missing : List InternedString)
  | truths (missing : List Bool)

def checkBoolExhaustiveness (cases : List HirMatchCase) : Option Warning :=
  let coverage := collectBools cases
  if coverage.hasWildcard || (coverage.hasTrue && coverage.hasFalse) then none
  else
    match coverage.hasTrue, coverage.hasFalse with
    | false, false => some (.truths [true, false])
    | true, false => some (.truths [false])
    | false, true => some (.truths [true])
    | true, true => none

/-- The names of the variants that the tables give for an enum. -/
def HirToMirContext.allVariants (context : HirToMirContext) (variantSymbols : List SymbolId) :
    NameSet :=
  OrdMap.ofList ((variantSymbols.filterMap context.symbols.get?).map fun name => (name, ()))

def HirToMirContext.checkEnumExhaustiveness (context : HirToMirContext) (enumSymbol : SymbolId)
    (cases : List HirMatchCase) : Option Warning :=
  match context.enumVariants.get? enumSymbol with
  | none => none
  | some variantSymbols =>
      let allVariants := (context.allVariants variantSymbols).keys
      if allVariants.isEmpty then none
      else
        let coverage := collectCoveredEnumVariants cases
        if coverage.hasWildcard then none
        else
          let missing := allVariants.filter fun name => !coverage.covered.contains name
          if missing.isEmpty then none
          else
            some (.variants (((context.symbols.get? enumSymbol).bind
              context.stringInterner.get?).getD "?") missing)

def HirToMirContext.checkSwitchExhaustiveness (context : HirToMirContext) (scrutinee : TypeId)
    (cases : List HirMatchCase) : Option Warning :=
  match context.typeTable.get? scrutinee with
  | some (.enum symbolId) => context.checkEnumExhaustiveness symbolId cases
  | some (.genericInstance baseType) =>
      match context.typeTable.get? baseType with
      | some (.enum symbolId) => context.checkEnumExhaustiveness symbolId cases
      | _ => none
  | some .bool => checkBoolExhaustiveness cases
  | _ => none

structure Diagnostic where
  message : String
  code : String
  label : String
  notes : List String
  help : String

def truthName : Bool → String
  | true => "true"
  | false => "false"

def Warning.diagnostic (context : HirToMirContext) : Warning → Diagnostic
  | .variants enumName missing =>
      let missingNames := missing.filterMap context.stringInterner.get?
      { message := "non-exhaustive switch on enum '" ++ enumName ++ "'"
        code := "W0006"
        label := "missing variants: " ++ ", ".intercalate missingNames
        notes := missingNames.map fun name => "add case for `" ++ name ++ "`"
        help := "consider adding a default case with `default:`" }
  | .truths missing =>
      { message := "non-exhaustive switch on Bool — missing: " ++
          ", ".intercalate (missing.map truthName)
        code := "W0007"
        label := "missing cases"
        notes := []
        help := "consider adding a default case with `default:`" }

/-! ### What is switched over -/

structure FieldType where
  holds : Value → Prop
  inhabited : ∃ value, holds value

structure EnumDeclaration where
  symbol : SymbolId
  variants : List (InternedString × List FieldType)

inductive SwitchType where
  | enum (declaration : EnumDeclaration)
  | bool

inductive Label where
  | variant (name : InternedString)
  | truth (value : Bool)

def EnumDeclaration.Has (declaration : EnumDeclaration) (name : InternedString)
    (values : List Value) : Prop :=
  ∃ fieldTypes, (name, fieldTypes) ∈ declaration.variants ∧
    List.Forall₂ FieldType.holds fieldTypes values

inductive SwitchType.HasAt : SwitchType → Label → Value → Prop where
  | variant {declaration : EnumDeclaration} {name : InternedString} {values : List Value}
      (has : declaration.Has name values) :
      HasAt (.enum declaration) (.variant name) (.enum name values)
  | truth (value : Bool) : HasAt .bool (.truth value) (.literal (.bool value))

/-- The tables know the declaration. -/
def HirToMirContext.Registers (context : HirToMirContext) (declaration : EnumDeclaration) : Prop :=
  ∃ symbols, context.enumVariants.get? declaration.symbol = some symbols ∧
    symbols.map context.symbols.get? = declaration.variants.map fun variant => some variant.1

def HirToMirContext.Types (context : HirToMirContext) (scrutinee : TypeId) : SwitchType → Prop
  | .enum declaration =>
      context.Registers declaration ∧
        (context.typeTable.get? scrutinee = some (.enum declaration.symbol) ∨
          ∃ baseType, context.typeTable.get? scrutinee = some (.genericInstance baseType) ∧
            context.typeTable.get? baseType = some (.enum declaration.symbol))
  | .bool => context.typeTable.get? scrutinee = some .bool

def unguarded (cases : List HirMatchCase) : List HirPattern :=
  (cases.filter fun case => !case.hasGuard).flatMap HirMatchCase.patterns

def Matched (cases : List HirMatchCase) (value : Value) : Prop :=
  someHolds (unguarded cases) value = true

def Warning.labels : Warning → List Label
  | .variants _ missing => missing.map .variant
  | .truths missing => missing.map .truth

/-- A warning is given just for what can be missed. -/
structure ExactFor (switchType : SwitchType) (cases : List HirMatchCase)
    (warning : Option Warning) : Prop where
  silent : warning = none ↔ ∀ label value, switchType.HasAt label value → Matched cases value
  named : ∀ given, warning = some given → ∀ label,
    label ∈ given.labels ↔ ∃ value, switchType.HasAt label value ∧ ¬Matched cases value

/-! ### When the check is exact -/

def unguardedHeads (cases : List HirMatchCase) : List Head := allHeads (unguarded cases)

def HirPattern.alternatives : HirPattern → List HirPattern
  | .or alternatives => alternatives
  | pattern => [pattern]

def HirPattern.isTruth (value : Bool) : HirPattern → Bool
  | .literal (.bool other) => other == value
  | _ => false

def HirPattern.isCatchAll : HirPattern → Bool
  | .wildcard => true
  | .variable _ _ => true
  | _ => false

/-- For an enum: some unguarded pattern catches everything, or a variant that heads an unguarded
pattern has its fields, whatever they hold, matched under that head. For `Bool`: a truth value that
is matched is matched by a pattern that is no deeper than an alternative of a case. -/
def SwitchType.Settled (cases : List HirMatchCase) : SwitchType → Prop
  | .enum declaration =>
      Head.anything ∈ unguardedHeads cases ∨
        ∀ name values, declaration.Has name values →
          (∃ fields, Head.variant name fields ∈ unguardedHeads cases) →
          ∃ fields, Head.variant name fields ∈ unguardedHeads cases ∧
            fieldsHold fields values = true
  | .bool =>
      ∀ value, Matched cases (.literal (.bool value)) →
        ∃ pattern ∈ (unguarded cases).flatMap HirPattern.alternatives,
          pattern.isCatchAll = true ∨ pattern.isTruth value = true

/-! ### What is collected -/

/-- The heads that a collection has added. -/
structure Coverage.Adds (before : Coverage) (heads : List Head) (after : Coverage) : Prop where
  wildcard : after.hasWildcard = true ↔ before.hasWildcard = true ∨ Head.anything ∈ heads
  variants : ∀ name, after.covered.contains name = true ↔
    before.covered.contains name = true ∨ ∃ fields, Head.variant name fields ∈ heads

theorem Coverage.Adds.nil (coverage : Coverage) : coverage.Adds [] coverage where
  wildcard := by simp
  variants name := by simp

theorem Coverage.Adds.append {before between after : Coverage} {heads heads' : List Head}
    (first : before.Adds heads between) (second : between.Adds heads' after) :
    before.Adds (heads ++ heads') after where
  wildcard := by rw [second.wildcard, first.wildcard, List.mem_append, or_assoc]
  variants name := by
    rw [second.variants, first.variants, or_assoc]
    simp only [List.mem_append, exists_or]

theorem Coverage.Adds.anything (coverage : Coverage) :
    coverage.Adds [.anything] { coverage with hasWildcard := true } where
  wildcard := by simp
  variants name := by simp

theorem Coverage.Adds.variant (coverage : Coverage) (name : InternedString)
    (fields : List HirPattern) :
    coverage.Adds [.variant name fields]
      { coverage with covered := coverage.covered.insert name () } where
  wildcard := by simp
  variants other := by
    simp only [OrdMap.contains_iff, OrdMap.get?_insert]
    by_cases same : other = name
    · simp [same]
    · simp [same]

mutual

theorem collectVariantsFromPattern_adds : ∀ (pattern : HirPattern) (coverage : Coverage),
    coverage.Adds pattern.heads (collectVariantsFromPattern false pattern coverage)
  | .variable _ _, coverage => .anything coverage
  | .wildcard, coverage => .anything coverage
  | .constructor _ variant fields, coverage => .variant coverage variant fields
  | .typed pattern _, coverage => by
      rw [HirPattern.heads, collectVariantsFromPattern]
      exact collectVariantsFromPattern_adds pattern coverage
  | .or alternatives, coverage => by
      rw [HirPattern.heads, collectVariantsFromPattern]
      exact collectVariantsFromPatterns_adds alternatives coverage
  | .literal _, coverage => .nil coverage
  | .tuple _, coverage => .nil coverage
  | .array _ _, coverage => .nil coverage
  | .object _ _, coverage => .nil coverage
  | .guard _, coverage => .nil coverage

theorem collectVariantsFromPatterns_adds : ∀ (patterns : List HirPattern) (coverage : Coverage),
    coverage.Adds (allHeads patterns) (collectVariantsFromPatterns false patterns coverage)
  | [], coverage => .nil coverage
  | pattern :: patterns, coverage => by
      rw [allHeads, collectVariantsFromPatterns]
      exact (collectVariantsFromPattern_adds pattern coverage).append
        (collectVariantsFromPatterns_adds patterns _)

end

mutual

theorem collectVariantsFromPattern_guarded : ∀ (pattern : HirPattern) (coverage : Coverage),
    collectVariantsFromPattern true pattern coverage = coverage
  | .variable _ _, _ => rfl
  | .wildcard, _ => rfl
  | .constructor _ _ _, _ => rfl
  | .typed pattern _, coverage => by
      rw [collectVariantsFromPattern]
      exact collectVariantsFromPattern_guarded pattern coverage
  | .or alternatives, coverage => by
      rw [collectVariantsFromPattern]
      exact collectVariantsFromPatterns_guarded alternatives coverage
  | .literal _, _ => rfl
  | .tuple _, _ => rfl
  | .array _ _, _ => rfl
  | .object _ _, _ => rfl
  | .guard _, _ => rfl

theorem collectVariantsFromPatterns_guarded :
    ∀ (patterns : List HirPattern) (coverage : Coverage),
    collectVariantsFromPatterns true patterns coverage = coverage
  | [], _ => rfl
  | pattern :: patterns, coverage => by
      rw [collectVariantsFromPatterns, collectVariantsFromPattern_guarded pattern coverage]
      exact collectVariantsFromPatterns_guarded patterns coverage

end

theorem allHeads_append (patterns patterns' : List HirPattern) :
    allHeads (patterns ++ patterns') = allHeads patterns ++ allHeads patterns' := by
  induction patterns with
  | nil => rfl
  | cons pattern patterns ih =>
      rw [List.cons_append, allHeads, allHeads, ih, List.append_assoc]

theorem unguarded_cons (case : HirMatchCase) (cases : List HirMatchCase) :
    unguarded (case :: cases) =
      (if case.hasGuard then [] else case.patterns) ++ unguarded cases := by
  unfold unguarded
  by_cases hasGuard : case.hasGuard = true
  · simp [hasGuard]
  · simp [hasGuard]

theorem collectCoveredEnumVariants_adds (cases : List HirMatchCase) :
    (Coverage.mk OrdMap.empty false).Adds (unguardedHeads cases)
      (collectCoveredEnumVariants cases) := by
  have along : ∀ coverage : Coverage, coverage.Adds (unguardedHeads cases)
      (cases.foldl (fun coverage case =>
        collectVariantsFromPatterns case.hasGuard case.patterns coverage) coverage) := by
    induction cases with
    | nil => exact Coverage.Adds.nil
    | cons case cases ih =>
        intro coverage
        rw [List.foldl_cons, unguardedHeads, unguarded_cons, allHeads_append]
        apply Coverage.Adds.append _ (ih _)
        by_cases hasGuard : case.hasGuard = true
        · rw [if_pos hasGuard, hasGuard, collectVariantsFromPatterns_guarded]
          exact .nil coverage
        · rw [if_neg hasGuard, Bool.eq_false_iff.mpr hasGuard]
          exact collectVariantsFromPatterns_adds case.patterns coverage
  exact along _

theorem hasWildcard_iff (cases : List HirMatchCase) :
    (collectCoveredEnumVariants cases).hasWildcard = true ↔
      Head.anything ∈ unguardedHeads cases := by
  rw [(collectCoveredEnumVariants_adds cases).wildcard]
  simp

theorem covered_iff (cases : List HirMatchCase) (name : InternedString) :
    (collectCoveredEnumVariants cases).covered.contains name = true ↔
      ∃ fields, Head.variant name fields ∈ unguardedHeads cases := by
  rw [(collectCoveredEnumVariants_adds cases).variants]
  simp [OrdMap.contains]

/-- The truth value is among the covered ones. -/
def BoolCoverage.has (coverage : BoolCoverage) : Bool → Bool
  | true => coverage.hasTrue
  | false => coverage.hasFalse

structure BoolCoverage.Adds (before : BoolCoverage) (patterns : List HirPattern)
    (after : BoolCoverage) : Prop where
  wildcard : after.hasWildcard = (before.hasWildcard || patterns.any HirPattern.isCatchAll)
  truths : ∀ value,
    after.has value = (before.has value || patterns.any (HirPattern.isTruth value))

theorem BoolCoverage.Adds.unchanged (coverage : BoolCoverage) {pattern : HirPattern}
    (notAll : pattern.isCatchAll = false) (notTruth : ∀ value, pattern.isTruth value = false) :
    coverage.Adds [pattern] coverage where
  wildcard := by simp [notAll]
  truths value := by simp [notTruth value]

theorem BoolCoverage.Adds.catchAll (coverage : BoolCoverage) {pattern : HirPattern}
    (isAll : pattern.isCatchAll = true) (notTruth : ∀ value, pattern.isTruth value = false) :
    coverage.Adds [pattern] { coverage with hasWildcard := true } where
  wildcard := by simp [isAll]
  truths value := by
    rw [List.any_cons, List.any_nil, notTruth value, Bool.or_false, Bool.or_false]
    cases value <;> rfl

theorem BoolCoverage.add_adds (coverage : BoolCoverage) :
    ∀ pattern : HirPattern, coverage.Adds [pattern] (coverage.add pattern)
  | .literal (.bool true) =>
      ⟨by simp [BoolCoverage.add, HirPattern.isCatchAll], fun value => by
        cases value <;> simp [BoolCoverage.add, BoolCoverage.has, HirPattern.isTruth]⟩
  | .literal (.bool false) =>
      ⟨by simp [BoolCoverage.add, HirPattern.isCatchAll], fun value => by
        cases value <;> simp [BoolCoverage.add, BoolCoverage.has, HirPattern.isTruth]⟩
  | .wildcard => .catchAll coverage rfl fun _ => rfl
  | .variable _ _ => .catchAll coverage rfl fun _ => rfl
  | .literal (.int _) => .unchanged coverage rfl fun _ => rfl
  | .literal (.float _) => .unchanged coverage rfl fun _ => rfl
  | .literal (.string _) => .unchanged coverage rfl fun _ => rfl
  | .literal (.regex _ _) => .unchanged coverage rfl fun _ => rfl
  | .constructor _ _ _ => .unchanged coverage rfl fun _ => rfl
  | .tuple _ => .unchanged coverage rfl fun _ => rfl
  | .array _ _ => .unchanged coverage rfl fun _ => rfl
  | .object _ _ => .unchanged coverage rfl fun _ => rfl
  | .typed _ _ => .unchanged coverage rfl fun _ => rfl
  | .or _ => .unchanged coverage rfl fun _ => rfl
  | .guard _ => .unchanged coverage rfl fun _ => rfl

theorem foldl_add_adds (patterns : List HirPattern) : ∀ coverage : BoolCoverage,
    coverage.Adds patterns (patterns.foldl BoolCoverage.add coverage) := by
  induction patterns with
  | nil => exact fun coverage => ⟨by simp, by simp⟩
  | cons pattern patterns ih =>
      intro coverage
      have first := coverage.add_adds pattern
      have rest := ih (coverage.add pattern)
      constructor
      · rw [List.foldl_cons, rest.wildcard, first.wildcard, Bool.or_assoc]
        simp only [List.any_cons, List.any_nil, Bool.or_false]
      · intro value
        rw [List.foldl_cons, rest.truths, first.truths, Bool.or_assoc]
        simp only [List.any_cons, List.any_nil, Bool.or_false]

theorem addPattern_eq (coverage : BoolCoverage) (pattern : HirPattern) :
    coverage.addPattern pattern = pattern.alternatives.foldl BoolCoverage.add coverage := by
  cases pattern <;> rfl

theorem collectBools_eq (cases : List HirMatchCase) :
    collectBools cases = ((unguarded cases).flatMap HirPattern.alternatives).foldl
      BoolCoverage.add ⟨false, false, false⟩ := by
  have patternwise : ∀ (patterns : List HirPattern) (coverage : BoolCoverage),
      patterns.foldl BoolCoverage.addPattern coverage =
        (patterns.flatMap HirPattern.alternatives).foldl BoolCoverage.add coverage := by
    intro patterns
    induction patterns with
    | nil => exact fun _ => rfl
    | cons pattern patterns ih =>
        intro coverage
        rw [List.foldl_cons, List.flatMap_cons, List.foldl_append, addPattern_eq,
          ih]
  have along : ∀ coverage : BoolCoverage,
      cases.foldl (fun coverage case => if case.hasGuard then coverage
        else case.patterns.foldl BoolCoverage.addPattern coverage) coverage =
        ((unguarded cases).flatMap HirPattern.alternatives).foldl BoolCoverage.add coverage := by
    induction cases with
    | nil => exact fun _ => rfl
    | cons case cases ih =>
        intro coverage
        rw [List.foldl_cons, unguarded_cons, List.flatMap_append, List.foldl_append,
          ih]
        by_cases hasGuard : case.hasGuard = true
        · rw [if_pos hasGuard, if_pos hasGuard]
          rfl
        · rw [if_neg hasGuard, if_neg hasGuard, patternwise]
  exact along _

theorem collectBools_adds (cases : List HirMatchCase) :
    (BoolCoverage.mk false false false).Adds
      ((unguarded cases).flatMap HirPattern.alternatives) (collectBools cases) := by
  rw [collectBools_eq]
  exact foldl_add_adds _ _

/-! ### What is named -/

/-- What a check names: nothing where it does not warn. -/
def namedLabels (warning : Option Warning) : List Label := (warning.map Warning.labels).getD []

theorem exactFor_iff {switchType : SwitchType} {cases : List HirMatchCase}
    {warning : Option Warning}
    (nonempty : ∀ given, warning = some given → given.labels ≠ []) :
    ExactFor switchType cases warning ↔ ∀ label,
      label ∈ namedLabels warning ↔
        ∃ value, switchType.HasAt label value ∧ ¬Matched cases value := by
  cases warning with
  | none =>
      have noLabel : ∀ label, label ∉ namedLabels none := fun _ => List.not_mem_nil
      constructor
      · intro exact label
        apply iff_of_false (noLabel label)
        rintro ⟨value, has, notMatched⟩
        exact notMatched (exact.silent.mp rfl label value has)
      · intro named
        refine ⟨iff_of_true rfl ?_, nofun⟩
        intro label value has
        by_contra notMatched
        exact noLabel label ((named label).mpr ⟨value, has, notMatched⟩)
  | some given =>
      constructor
      · exact fun exact => exact.named given rfl
      · intro named
        refine ⟨iff_of_false nofun ?_, ?_⟩
        · intro allMatched
          obtain ⟨label, member⟩ := List.exists_mem_of_ne_nil _ (nonempty given rfl)
          obtain ⟨value, has, notMatched⟩ := (named label).mp member
          exact notMatched (allMatched label value has)
        · intro _ same
          cases same
          exact named

theorem mem_allVariants_iff {context : HirToMirContext} {declaration : EnumDeclaration}
    {symbols : List SymbolId}
    (registered : symbols.map context.symbols.get? =
      declaration.variants.map fun variant => some variant.1) (name : InternedString) :
    name ∈ (context.allVariants symbols).keys ↔
      ∃ fieldTypes, (name, fieldTypes) ∈ declaration.variants := by
  have same : symbols.filterMap context.symbols.get? = declaration.variants.map Prod.fst := by
    calc symbols.filterMap context.symbols.get?
        = (symbols.map context.symbols.get?).filterMap id := by rw [List.filterMap_map]; rfl
      _ = declaration.variants.map Prod.fst := by
          rw [registered, List.filterMap_map, ← List.filterMap_eq_map]; rfl
  rw [HirToMirContext.allVariants, OrdMap.mem_keys_ofList, List.map_map, same]
  simp [Function.comp_def]

theorem has_of_mem {declaration : EnumDeclaration} {name : InternedString}
    {fieldTypes : List FieldType} (member : (name, fieldTypes) ∈ declaration.variants) :
    ∃ values, declaration.Has name values := by
  have inhabited : ∀ fieldTypes : List FieldType,
      ∃ values, List.Forall₂ FieldType.holds fieldTypes values := by
    intro fieldTypes
    induction fieldTypes with
    | nil => exact ⟨[], .nil⟩
    | cons fieldType fieldTypes ih =>
        obtain ⟨value, holds⟩ := fieldType.inhabited
        obtain ⟨values, held⟩ := ih
        exact ⟨value :: values, .cons holds held⟩
  obtain ⟨values, held⟩ := inhabited fieldTypes
  exact ⟨values, fieldTypes, member, held⟩

/-- The names of an enum's warning are the uncovered variants, where nothing catches all. -/
theorem mem_namedLabels_enum_iff {context : HirToMirContext} {declaration : EnumDeclaration}
    (registered : context.Registers declaration) (cases : List HirMatchCase)
    (name : InternedString) :
    .variant name ∈ namedLabels (context.checkEnumExhaustiveness declaration.symbol cases) ↔
      (∃ values, declaration.Has name values) ∧ Head.anything ∉ unguardedHeads cases ∧
        ¬∃ fields, Head.variant name fields ∈ unguardedHeads cases := by
  obtain ⟨symbols, isFound, names⟩ := registered
  have ofVariant : (∃ values, declaration.Has name values) ↔
      name ∈ (context.allVariants symbols).keys := by
    rw [mem_allVariants_iff names]
    constructor
    · rintro ⟨values, fieldTypes, member, held⟩
      exact ⟨fieldTypes, member⟩
    · rintro ⟨fieldTypes, member⟩
      exact has_of_mem member
  have noneNamed : .variant name ∉ namedLabels none := List.not_mem_nil
  rw [ofVariant, ← hasWildcard_iff, ← covered_iff, HirToMirContext.checkEnumExhaustiveness, isFound]
  dsimp only
  by_cases noVariant : (context.allVariants symbols).keys.isEmpty = true
  · rw [if_pos noVariant, List.isEmpty_iff.mp noVariant]
    exact iff_of_false noneNamed fun named => List.not_mem_nil named.1
  · rw [if_neg noVariant]
    by_cases catchAll : (collectCoveredEnumVariants cases).hasWildcard = true
    · rw [if_pos catchAll]
      exact iff_of_false noneNamed fun named => named.2.1 catchAll
    · rw [if_neg catchAll]
      have inMissing : name ∈ ((context.allVariants symbols).keys.filter fun name =>
            !(collectCoveredEnumVariants cases).covered.contains name) ↔
          name ∈ (context.allVariants symbols).keys ∧
            ¬(collectCoveredEnumVariants cases).hasWildcard = true ∧
            ¬(collectCoveredEnumVariants cases).covered.contains name = true := by
        simp [List.mem_filter, catchAll]
      rw [← inMissing]
      split
      · next noneMissing =>
          rw [List.isEmpty_iff.mp noneMissing]
          exact iff_of_false noneNamed List.not_mem_nil
      · simp [namedLabels, Warning.labels]

theorem mem_namedLabels_bool_iff (cases : List HirMatchCase) (value : Bool) :
    .truth value ∈ namedLabels (checkBoolExhaustiveness cases) ↔
      ¬∃ pattern ∈ (unguarded cases).flatMap HirPattern.alternatives,
        pattern.isCatchAll = true ∨ pattern.isTruth value = true := by
  have collected := collectBools_adds cases
  have shallow : (∃ pattern ∈ (unguarded cases).flatMap HirPattern.alternatives,
        pattern.isCatchAll = true ∨ pattern.isTruth value = true) ↔
      (collectBools cases).hasWildcard = true ∨ (collectBools cases).has value = true := by
    rw [collected.wildcard, collected.truths]
    cases value <;> simp only [BoolCoverage.has, Bool.false_or, List.any_eq_true] <;>
      simp only [and_or_left, exists_or]
  rw [shallow, checkBoolExhaustiveness]
  cases wildcard : (collectBools cases).hasWildcard <;>
    cases hasTrue : (collectBools cases).hasTrue <;>
    cases hasFalse : (collectBools cases).hasFalse <;>
    cases value <;>
    simp [namedLabels, Warning.labels, BoolCoverage.has, hasTrue, hasFalse]

/-! ### The check is exact where no field and no depth counts -/

theorem matched_enum_iff (cases : List HirMatchCase) (name : InternedString)
    (values : List Value) :
    Matched cases (.enum name values) ↔
      Head.anything ∈ unguardedHeads cases ∨
        ∃ fields, Head.variant name fields ∈ unguardedHeads cases ∧
          fieldsHold fields values = true := by
  rw [Matched, someHolds_enum_iff, List.any_eq_true, unguardedHeads]
  constructor
  · rintro ⟨head, member, holds⟩
    cases head with
    | anything => exact .inl member
    | variant other fields =>
        simp only [Head.holds, Bool.and_eq_true, beq_iff_eq] at holds
        exact .inr ⟨fields, holds.1 ▸ member, holds.2⟩
  · rintro (member | ⟨fields, member, holds⟩)
    · exact ⟨.anything, member, rfl⟩
    · exact ⟨.variant name fields, member, by simp [Head.holds, holds]⟩

theorem someHolds_iff (patterns : List HirPattern) (value : Value) :
    someHolds patterns value = true ↔ ∃ pattern ∈ patterns, pattern.holds value = true := by
  induction patterns with
  | nil => simp [someHolds]
  | cons pattern patterns ih =>
      rw [someHolds, Bool.or_eq_true, ih]
      simp

theorem holds_of_shallow {value : Bool} : ∀ {pattern : HirPattern},
    pattern.isCatchAll = true ∨ pattern.isTruth value = true →
      pattern.holds (.literal (.bool value)) = true
  | .wildcard, _ => rfl
  | .variable _ _, _ => rfl
  | .literal (.bool _), .inr isTruth => isTruth

theorem matched_of_shallow {cases : List HirMatchCase} {value : Bool} {pattern : HirPattern}
    (member : pattern ∈ (unguarded cases).flatMap HirPattern.alternatives)
    (counts : pattern.isCatchAll = true ∨ pattern.isTruth value = true) :
    Matched cases (.literal (.bool value)) := by
  obtain ⟨whole, isUnguarded, isAlternative⟩ := List.mem_flatMap.mp member
  have holds := holds_of_shallow counts
  apply (someHolds_iff _ _).mpr ⟨whole, isUnguarded, ?_⟩
  cases whole with
  | or alternatives =>
      rw [HirPattern.holds]
      exact (someHolds_iff _ _).mpr ⟨pattern, isAlternative, holds⟩
  | _ => exact List.mem_singleton.mp isAlternative ▸ holds

theorem checkEnumExhaustiveness_shape (context : HirToMirContext) (enumSymbol : SymbolId)
    (cases : List HirMatchCase) :
    context.checkEnumExhaustiveness enumSymbol cases = none ∨
      ∃ enumName missing, missing ≠ [] ∧
        context.checkEnumExhaustiveness enumSymbol cases = some (.variants enumName missing) := by
  rw [HirToMirContext.checkEnumExhaustiveness]
  split
  · exact .inl rfl
  · dsimp only
    split_ifs with noVariant catchAll noneMissing
    · exact .inl rfl
    · exact .inl rfl
    · exact .inl rfl
    · exact .inr ⟨_, _, fun empty => noneMissing (List.isEmpty_iff.mpr empty), rfl⟩

theorem checkBoolExhaustiveness_shape (cases : List HirMatchCase) :
    checkBoolExhaustiveness cases = none ∨
      ∃ missing, missing ≠ [] ∧ checkBoolExhaustiveness cases = some (.truths missing) := by
  rw [checkBoolExhaustiveness]
  split
  · exact .inl rfl
  · split
    · exact .inr ⟨_, List.cons_ne_nil _ _, rfl⟩
    · exact .inr ⟨_, List.cons_ne_nil _ _, rfl⟩
    · exact .inr ⟨_, List.cons_ne_nil _ _, rfl⟩
    · exact .inl rfl

theorem checkEnumExhaustiveness_exact_iff {context : HirToMirContext}
    {declaration : EnumDeclaration} (registered : context.Registers declaration)
    (cases : List HirMatchCase) :
    ExactFor (.enum declaration) cases
        (context.checkEnumExhaustiveness declaration.symbol cases) ↔
      (SwitchType.enum declaration).Settled cases := by
  have shape := checkEnumExhaustiveness_shape context declaration.symbol cases
  have nonempty : ∀ given,
      context.checkEnumExhaustiveness declaration.symbol cases = some given →
        given.labels ≠ [] := by
    intro given isGiven
    obtain silent | ⟨enumName, missing, someMissing, warned⟩ := shape
    · exact nomatch silent.symm.trans isGiven
    · cases warned.symm.trans isGiven
      simpa [Warning.labels] using someMissing
  rw [exactFor_iff nonempty]
  constructor
  · -- A covered variant is not named, so each of its values must be matched.
    intro exact
    by_cases catchAll : Head.anything ∈ unguardedHeads cases
    · exact .inl catchAll
    · right
      intro name values has isCovered
      by_contra notHeld
      have notMatched : ¬Matched cases (.enum name values) := by
        rw [matched_enum_iff]
        exact not_or.mpr ⟨catchAll, notHeld⟩
      have named := (exact (.variant name)).mpr ⟨_, .variant has, notMatched⟩
      exact ((mem_namedLabels_enum_iff registered cases name).mp named).2.2 isCovered
  · intro settled label
    cases label with
    | truth value =>
        apply iff_of_false
        · obtain silent | ⟨enumName, missing, someMissing, warned⟩ := shape
          · rw [silent]
            exact List.not_mem_nil
          · rw [warned]
            simp [namedLabels, Warning.labels]
        · rintro ⟨_, has, _⟩
          cases has
    | variant name =>
        rw [mem_namedLabels_enum_iff registered]
        constructor
        · rintro ⟨⟨values, has⟩, noCatchAll, notCovered⟩
          refine ⟨_, .variant has, ?_⟩
          rw [matched_enum_iff]
          rintro (catchAll | ⟨fields, member, holds⟩)
          · exact noCatchAll catchAll
          · exact notCovered ⟨fields, member⟩
        · rintro ⟨_, has, notMatched⟩
          cases has with
          | variant has =>
            rw [matched_enum_iff, not_or] at notMatched
            refine ⟨⟨_, has⟩, notMatched.1, fun isCovered => notMatched.2 ?_⟩
            exact (settled.resolve_left notMatched.1) name _ has isCovered

theorem checkBoolExhaustiveness_exact_iff (cases : List HirMatchCase) :
    ExactFor .bool cases (checkBoolExhaustiveness cases) ↔ SwitchType.bool.Settled cases := by
  have shape := checkBoolExhaustiveness_shape cases
  have nonempty : ∀ given, checkBoolExhaustiveness cases = some given → given.labels ≠ [] := by
    intro given isGiven
    obtain silent | ⟨missing, someMissing, warned⟩ := shape
    · exact nomatch silent.symm.trans isGiven
    · cases warned.symm.trans isGiven
      simpa [Warning.labels] using someMissing
  rw [exactFor_iff nonempty]
  constructor
  · -- A truth value that counts for nothing is named, so nothing may match it.
    intro exact value isMatched
    by_contra notCounted
    have named := (mem_namedLabels_bool_iff cases value).mpr notCounted
    obtain ⟨_, has, notMatched⟩ := (exact (.truth value)).mp named
    cases has
    exact notMatched isMatched
  · intro settled label
    cases label with
    | variant name =>
        apply iff_of_false
        · obtain silent | ⟨missing, someMissing, warned⟩ := shape
          · rw [silent]
            exact List.not_mem_nil
          · rw [warned]
            simp [namedLabels, Warning.labels]
        · rintro ⟨_, has, _⟩
          cases has
    | truth value =>
        rw [mem_namedLabels_bool_iff]
        constructor
        · exact fun notCounted => ⟨_, .truth value, mt (settled value) notCounted⟩
        · rintro ⟨_, has, notMatched⟩ ⟨pattern, member, counts⟩
          cases has
          exact notMatched (matched_of_shallow member counts)

/-- The warning about a switch is exact if and only if no covered variant has a value that its
patterns miss, and no truth value is matched only in depth. -/
theorem checkSwitchExhaustiveness_exact_iff (context : HirToMirContext) (scrutinee : TypeId)
    (switchType : SwitchType) (types : context.Types scrutinee switchType)
    (cases : List HirMatchCase) :
    ExactFor switchType cases (context.checkSwitchExhaustiveness scrutinee cases) ↔
      switchType.Settled cases := by
  cases switchType with
  | enum declaration =>
      obtain ⟨registered, isEnum⟩ := types
      have resolves : context.checkSwitchExhaustiveness scrutinee cases =
          context.checkEnumExhaustiveness declaration.symbol cases := by
        obtain direct | ⟨baseType, isInstance, base⟩ := isEnum
        · simp only [HirToMirContext.checkSwitchExhaustiveness, direct]
        · simp only [HirToMirContext.checkSwitchExhaustiveness, isInstance, base]
      rw [resolves]
      exact checkEnumExhaustiveness_exact_iff registered cases
  | bool =>
      have resolves : context.checkSwitchExhaustiveness scrutinee cases =
          checkBoolExhaustiveness cases := by
        have isBool : context.typeTable.get? scrutinee = some .bool := types
        simp only [HirToMirContext.checkSwitchExhaustiveness, isBool]
      rw [resolves]
      exact checkBoolExhaustiveness_exact_iff cases

/-! ### A switch on one field -/

def boolField : FieldType where
  holds value := value = .literal (.bool true) ∨ value = .literal (.bool false)
  inhabited := ⟨.literal (.bool true), .inl rfl⟩

/-- `enum E { A(flag : Bool); }`, with `A` the name 1 and the symbol 1 of the enum 0. -/
def flagged : EnumDeclaration := ⟨0, [(1, [boolField])]⟩

def flaggedContext : HirToMirContext where
  typeTable := OrdMap.ofList [(0, .enum 0)]
  symbols := OrdMap.ofList [(0, 0), (1, 1)]
  enumVariants := OrdMap.ofList [(0, [1])]
  stringInterner := OrdMap.ofList [(0, "E"), (1, "A")]

/-- `case A(true):` and `case A(_):`. -/
def onlyTrue : HirMatchCase := ⟨[.constructor 0 1 [.literal (.bool true)]], false⟩

def anyFlag : HirMatchCase := ⟨[.constructor 0 1 [.wildcard]], false⟩

theorem flaggedContext_types : flaggedContext.Types 0 (.enum flagged) :=
  ⟨⟨[1], rfl, rfl⟩, .inl rfl⟩

/-- With both cases every value is matched, and nothing is warned about. -/
theorem anyFlag_exact :
    ExactFor (.enum flagged) [onlyTrue, anyFlag]
      (flaggedContext.checkSwitchExhaustiveness 0 [onlyTrue, anyFlag]) := by
  apply (checkSwitchExhaustiveness_exact_iff flaggedContext 0 (.enum flagged)
    flaggedContext_types [onlyTrue, anyFlag]).mpr
  right
  rintro name values ⟨fieldTypes, member, held⟩ -
  cases List.mem_singleton.mp member
  refine ⟨[.wildcard], by simp [unguardedHeads, unguarded, onlyTrue, anyFlag, allHeads,
    HirPattern.heads], ?_⟩
  cases held with
  | cons _ _ => rfl

/-- `case A(true)` alone leaves `A(false)`, without a warning. -/
theorem onlyTrue_notExact :
    flaggedContext.Types 0 (.enum flagged) ∧
      ¬ExactFor (.enum flagged) [onlyTrue]
        (flaggedContext.checkSwitchExhaustiveness 0 [onlyTrue]) := by
  refine ⟨flaggedContext_types, fun exact => ?_⟩
  have silent : flaggedContext.checkSwitchExhaustiveness 0 [onlyTrue] = none := rfl
  have has : (SwitchType.enum flagged).HasAt (.variant 1) (.enum 1 [.literal (.bool false)]) :=
    .variant ⟨[boolField], List.mem_singleton.mpr rfl, .cons (.inr rfl) .nil⟩
  have isMatched := exact.silent.mp silent _ _ has
  exact Bool.false_ne_true isMatched

end Rayzor.Switches
