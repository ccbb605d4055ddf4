import Rayzor.Captures.Mentions

/-!
Contract: when the capture analysis reports the captured variables.
-/

namespace Rayzor.Captures

namespace CaptureAnalyzer

variable {mentions : List Mention} {symbolId : SymbolId}

def UsedAs (mentions : List Mention) (symbolId : SymbolId) (exprType : TypeId) : Prop :=
  ∃ visited, .use symbolId exprType visited ∈ mentions

def Used (mentions : List Mention) (symbolId : SymbolId) : Prop :=
  ∃ exprType, UsedAs mentions symbolId exprType

def Visited (mentions : List Mention) (symbolId : SymbolId) : Prop :=
  ∃ exprType, .use symbolId exprType true ∈ mentions

def Declared (mentions : List Mention) (symbolId : SymbolId) : Prop :=
  ∃ kept, .declare symbolId kept ∈ mentions

/-- A declaration of the symbol ends among the locals of the literal. -/
def Kept (mentions : List Mention) (symbolId : SymbolId) : Prop :=
  .declare symbolId true ∈ mentions

namespace Collected

theorem gatherAll_locals (mentions : List Mention) : ∀ collected : Collected,
    symbolId ∈ (collected.gatherAll mentions).locals ↔
      symbolId ∈ collected.locals ∨ Kept mentions symbolId := by
  unfold Kept
  induction mentions with
  | nil => simp
  | cons mention mentions ih =>
      intro collected
      have step := ih (collected.gather mention)
      unfold gatherAll at step ⊢
      rw [List.foldl_cons, step]
      cases mention with
      | declare other kept => cases kept <;> simp [gather, insertLocal, or_assoc, or_left_comm]
      | use other exprType visited =>
          cases visited
          · simp [gather]
          · show symbolId ∈ (collected.refer other exprType).locals ∨ _ ↔ _
            rw [refer_locals]
            simp

theorem mem_refer (collected : Collected) (other : SymbolId) (exprType : TypeId) :
    (collected.refer other exprType).referenced.contains symbolId = true ↔
      collected.referenced.contains symbolId = true ∨ symbolId = other := by
  unfold refer
  by_cases known : collected.referenced.contains other = true
  · rw [if_pos known]
    refine (or_iff_left_of_imp ?_).symm
    rintro rfl
    exact known
  · rw [if_neg known]
    unfold Library.OrdMap.contains
    rw [Library.OrdMap.get?_insert]
    by_cases same : symbolId = other <;> simp [same]

theorem gatherAll_referenced (mentions : List Mention) : ∀ collected : Collected,
    (collected.gatherAll mentions).referenced.contains symbolId = true ↔
      collected.referenced.contains symbolId = true ∨ Visited mentions symbolId := by
  unfold Visited
  induction mentions with
  | nil => simp
  | cons mention mentions ih =>
      intro collected
      have step := ih (collected.gather mention)
      unfold gatherAll at step ⊢
      rw [List.foldl_cons, step]
      cases mention with
      | declare other kept => cases kept <;> simp [gather, insertLocal]
      | use other exprType visited =>
          cases visited
          · simp [gather]
          · show (collected.refer other exprType).referenced.contains symbolId = true ∨ _ ↔ _
            rw [mem_refer, or_assoc]
            apply or_congr_right
            simp [exists_or]

/-- Types are those of uses. -/
theorem gatherAll_types {exprType : TypeId} (mentions : List Mention) : ∀ collected : Collected,
    (collected.gatherAll mentions).referenced.get? symbolId = some exprType →
      collected.referenced.get? symbolId = some exprType ∨
        UsedAs mentions symbolId exprType := by
  unfold UsedAs
  induction mentions with
  | nil => exact fun collected found => .inl found
  | cons mention mentions ih =>
      intro collected found
      have later : (∃ visited, .use symbolId exprType visited ∈ mentions) →
          ∃ visited, .use symbolId exprType visited ∈ mention :: mentions :=
        fun ⟨visited, member⟩ => ⟨visited, List.mem_cons_of_mem _ member⟩
      rcases ih (collected.gather mention) found with before | use
      · cases mention with
        | declare other kept => cases kept <;> exact .inl before
        | use other otherType visited =>
            cases visited
            · exact .inl before
            · change (collected.refer other otherType).referenced.get? symbolId = _ at before
              unfold refer at before
              split at before
              · exact .inl before
              · rw [Library.OrdMap.get?_insert] at before
                split at before
                · rename_i same
                  subst same
                  cases before
                  exact .inr ⟨true, List.mem_cons_self⟩
                · exact .inl before
      · exact .inr (later use)

end Collected

/-- The captured variables are the symbols that occur as variables and are declared outside the
literal, each reported once and with the type of a use. -/
structure ReportsExactly (parameters : List TypedParameter) (body : List TypedStatement) : Prop where
  once : ((analyzeFunctionLiteral parameters body).map (·.symbolId)).Nodup
  typed : ∀ captured ∈ analyzeFunctionLiteral parameters body,
    UsedAs (literalMentions parameters body) captured.symbolId captured.typeId
  captured_iff : ∀ symbolId, symbolId ∈ (analyzeFunctionLiteral parameters body).map (·.symbolId) ↔
    Used (literalMentions parameters body) symbolId ∧
      ¬Declared (literalMentions parameters body) symbolId

variable (parameters : List TypedParameter) (body : List TypedStatement)

theorem reported_nodup : ((analyzeFunctionLiteral parameters body).map (·.symbolId)).Nodup := by
  unfold analyzeFunctionLiteral
  rw [List.map_map]
  have sub : (((collectBody parameters body).referenced.entries.filter fun entry =>
      decide (entry.1 ∉ (collectBody parameters body).locals)).map Prod.fst).Sublist
        (collectBody parameters body).referenced.keys :=
    List.filter_sublist.map Prod.fst
  exact sub.nodup (collectBody parameters body).referenced.keys_nodup

theorem reported_typed {captured : CapturedVariable}
    (member : captured ∈ analyzeFunctionLiteral parameters body) :
    UsedAs (literalMentions parameters body) captured.symbolId captured.typeId := by
  obtain ⟨entry, kept, rfl⟩ := List.mem_map.mp member
  have found := (Library.OrdMap.mem_entries_iff _ _ _).mp (List.mem_of_mem_filter kept)
  rw [collectBody_eq] at found
  rcases Collected.gatherAll_types _ _ found with absent | use
  · cases absent
  · exact use

theorem reported_iff (symbolId : SymbolId) :
    symbolId ∈ (analyzeFunctionLiteral parameters body).map (·.symbolId) ↔
      Visited (literalMentions parameters body) symbolId ∧
        ¬Kept (literalMentions parameters body) symbolId := by
  have isReferenced : (collectBody parameters body).referenced.contains symbolId = true ↔
      Visited (literalMentions parameters body) symbolId := by
    rw [collectBody_eq, Collected.gatherAll_referenced]
    exact or_iff_right Bool.false_ne_true
  have isLocal : symbolId ∈ (collectBody parameters body).locals ↔
      Kept (literalMentions parameters body) symbolId := by
    rw [collectBody_eq, Collected.gatherAll_locals]
    exact or_iff_right (Finset.notMem_empty symbolId)
  rw [← isReferenced, ← isLocal, Library.OrdMap.contains_iff]
  unfold analyzeFunctionLiteral
  simp only [List.mem_map, List.mem_filter, decide_eq_true_eq, Prod.exists,
    Library.OrdMap.mem_entries_iff]
  constructor
  · rintro ⟨captured, ⟨other, exprType, ⟨found, outside⟩, rfl⟩, rfl⟩
    exact ⟨⟨exprType, found⟩, outside⟩
  · rintro ⟨⟨exprType, found⟩, outside⟩
    exact ⟨_, ⟨symbolId, exprType, ⟨found, outside⟩, rfl⟩, rfl⟩

variable {parameters body}

theorem Visited.used (visited : Visited mentions symbolId) : Used mentions symbolId := by
  obtain ⟨exprType, member⟩ := visited
  exact ⟨exprType, true, member⟩

theorem Kept.declared (kept : Kept mentions symbolId) : Declared mentions symbolId :=
  ⟨true, kept⟩

/-- The walk comes to some use of every symbol that is used and declared outside. -/
def NothingPassedOver (mentions : List Mention) : Prop :=
  ∀ symbolId, Used mentions symbolId → ¬Declared mentions symbolId → Visited mentions symbolId

/-- Every symbol declared inside that the walk comes to a use of is declared where the locals are
kept, not only where they are a copy or where the walk does not come. -/
def NothingDropped (mentions : List Mention) : Prop :=
  ∀ symbolId, Declared mentions symbolId → Visited mentions symbolId → Kept mentions symbolId

/-- The report is exact just when no outer variable is used only where the walk does not come, and
no inner one that the walk meets is declared only where its locals are lost. -/
theorem reportsExactly_iff (parameters : List TypedParameter) (body : List TypedStatement) :
    ReportsExactly parameters body ↔
      NothingPassedOver (literalMentions parameters body) ∧
        NothingDropped (literalMentions parameters body) := by
  constructor
  · intro reports
    have agree : ∀ symbolId, Visited (literalMentions parameters body) symbolId ∧
        ¬Kept (literalMentions parameters body) symbolId ↔
          Used (literalMentions parameters body) symbolId ∧
            ¬Declared (literalMentions parameters body) symbolId := fun symbolId =>
      (reported_iff parameters body symbolId).symm.trans (reports.captured_iff symbolId)
    constructor
    · intro symbolId used outside
      exact ((agree symbolId).mpr ⟨used, outside⟩).1
    · intro symbolId declared visited
      by_contra lost
      exact ((agree symbolId).mp ⟨visited, lost⟩).2 declared
  · rintro ⟨nothingPassedOver, nothingDropped⟩
    refine ⟨reported_nodup parameters body, fun _ => reported_typed parameters body,
      fun symbolId => ?_⟩
    rw [reported_iff]
    constructor
    · rintro ⟨visited, notKept⟩
      exact ⟨visited.used, fun declared => notKept (nothingDropped symbolId declared visited)⟩
    · rintro ⟨used, outside⟩
      exact ⟨nothingPassedOver symbolId used outside, fun kept => outside kept.declared⟩

def OwnSymbols (mentions : List Mention) : Prop :=
  (mentions.filterMap fun
    | .declare symbolId _ => some symbolId
    | .use _ _ _ => none).Nodup

/-- A literal with a nested one that returns its own parameter. -/
def identityInside : List TypedStatement :=
  [.expression (.functionLiteral [.mk 7 none] [.returnStatement (some (.variable 7 1))])]

/-- The parameter of the nested literal is taken for a captured variable. -/
theorem identityInside_reported : OwnSymbols (literalMentions [] identityInside) ∧
    ¬ReportsExactly [] identityInside := by
  constructor
  · unfold OwnSymbols
    decide
  · intro reports
    have captured : 7 ∈ (analyzeFunctionLiteral [] identityInside).map (·.symbolId) := by decide
    exact ((reports.captured_iff 7).mp captured).2 ⟨false, by decide⟩

end CaptureAnalyzer

end Rayzor.Captures
