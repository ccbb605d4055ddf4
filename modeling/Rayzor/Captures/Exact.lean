import Rayzor.Captures.Visitor

/-!
Contract: when the captured variables are the free variables of a lambda's body.
-/

namespace Rayzor.Captures

open FreeVariableVisitor
open Library.ScopePart (FoundIn FreeIn Missed Mistaken found_eq_free_iff visit visitAll
  visitAll_append visitAll_declare visitAll_tracks visitAll_widen walkAll)

/-- A nested lambda: its own visit, from its parameters, is a visit of its parts as a scope. -/
theorem addNested_eq (visitor : FreeVariableVisitor) (parameters : List TypedParameter)
    (body : List (Library.ScopePart SymbolId)) :
    visitor.addNested (visitAll (new parameters) body) =
      { visitAll { visitor with bound := visitor.bound ∪
          (parameters.map TypedParameter.symbolId).toFinset } body with bound := visitor.bound } := by
  have widened := visitAll_widen visitor.bound visitor.free body (new parameters)
    { visitor with bound := visitor.bound ∪ (parameters.map TypedParameter.symbolId).toFinset } rfl
    (fun name => by simp [new])
  unfold addNested
  congr 1
  apply Finset.ext
  intro name
  rw [widened.2, Finset.mem_union, Finset.mem_filter]

mutual

theorem visitStatements_eq : ∀ (statements : List TypedStatement) (visitor : FreeVariableVisitor),
    visitStatements visitor statements = visitAll visitor (statementParts statements)
  | [], visitor => by simp only [visitStatements, statementParts, visitAll]
  | statement :: statements, visitor => by
      rw [visitStatements, statementParts, visitAll_append, visitStatements_eq statements,
        visitStatement_eq statement]

theorem visitStatement_eq : ∀ (statement : TypedStatement) (visitor : FreeVariableVisitor),
    visitStatement visitor statement = visitAll visitor statement.parts
  | .varDeclaration symbolId initializer, visitor => by
      rw [visitStatement, TypedStatement.parts, visitAll, visit, visitOptional_eq initializer]
      rfl
  | .expression expression, visitor => by
      rw [visitStatement, TypedStatement.parts, visitExpression_eq expression]
  | .assignment target value, visitor => by
      rw [visitStatement, TypedStatement.parts, visitAll_append, visitExpression_eq value,
        visitExpression_eq target]
  | .ifStatement condition thenBranch elseBranch, visitor => by
      rw [visitStatement, TypedStatement.parts, visitAll_append, visitOptionalStatement_eq elseBranch,
        visitStatement_eq thenBranch, visitExpression_eq condition]
      simp only [visitAll, visit]
  | .whileStatement condition body doWhile, visitor => by
      rw [visitStatement, TypedStatement.parts, visitAll_append, visitStatement_eq body,
        visitExpression_eq condition]
      simp only [visitAll, visit]
  | .forStatement init condition update body, visitor => by
      rw [visitStatement, TypedStatement.parts, visitStatement_eq body, visitOptional_eq update,
        visitOptional_eq condition, visitOptionalStatement_eq init]
      simp only [visitAll, visit, visitAll_append]
  | .block statements, visitor => by
      rw [visitStatement, TypedStatement.parts, visitStatements_eq statements]
      simp only [visitAll, visit]
      rfl
  | .returnStatement value, visitor => by
      rw [visitStatement, TypedStatement.parts, visitOptional_eq value]
  | .throwStatement exception, visitor => by
      rw [visitStatement, TypedStatement.parts, visitExpression_eq exception]
  | .tryStatement body catchClauses finallyBlock, visitor => by
      rw [visitStatement, TypedStatement.parts, visitOptionalStatement_eq finallyBlock,
        visitCatches_eq catchClauses, visitStatement_eq body]
      simp only [List.cons_append, visitAll, visit, visitAll_append]
  | .forIn _ _ _ _, visitor | .switchStatement _ _ _, visitor | .patternMatch _ _, visitor
  | .macroExpansion _ _, visitor => by
      simp only [visitStatement, TypedStatement.parts, visitAll, visit]
  | .breakStatement, visitor | .continueStatement, visitor => by
      simp only [visitStatement, TypedStatement.parts, visitAll]

theorem visitOptionalStatement_eq : ∀ (statement : Option TypedStatement)
    (visitor : FreeVariableVisitor),
    visitOptionalStatement visitor statement = visitAll visitor (optionalStatementParts statement)
  | none, visitor => by simp only [visitOptionalStatement, optionalStatementParts, visitAll]
  | some statement, visitor => by
      rw [visitOptionalStatement, optionalStatementParts, visitStatement_eq statement]

theorem visitCatches_eq : ∀ (catchClauses : List TypedCatchClause) (visitor : FreeVariableVisitor),
    visitCatches visitor catchClauses = visitAll visitor (catchParts catchClauses)
  | [], visitor => by simp only [visitCatches, catchParts, visitAll]
  | .mk exceptionVariable filter body :: catchClauses, visitor => by
      rw [visitCatches, catchParts, visitAll, visitCatches_eq catchClauses, visitCatch,
        visitStatement_eq body]
      simp only [visitAll, visit]
      rfl

theorem visitExpression_eq : ∀ (expression : TypedExpression) (visitor : FreeVariableVisitor),
    visitExpression visitor expression = visitAll visitor expression.parts
  | .variable symbolId exprType, visitor => by
      simp only [visitExpression, TypedExpression.parts, visitAll, visit]
  | .fieldAccess inner, visitor | .unaryOp inner, visitor | .cast inner, visitor => by
      rw [visitExpression, TypedExpression.parts, visitExpression_eq inner]
  | .arrayAccess left right, visitor | .binaryOp left right, visitor => by
      rw [visitExpression, TypedExpression.parts, visitAll_append, visitExpression_eq right,
        visitExpression_eq left]
  | .functionCall callee arguments, visitor | .methodCall callee arguments, visitor => by
      rw [visitExpression, TypedExpression.parts, visitAll_append, visitExpressions_eq arguments,
        visitExpression_eq callee]
  | .conditional condition thenExpr elseExpr, visitor => by
      rw [visitExpression, TypedExpression.parts, visitAll_append, visitOptional_eq elseExpr,
        visitExpression_eq thenExpr, visitExpression_eq condition]
      simp only [visitAll, visit]
  | .arrayLiteral inner, visitor | .objectLiteral inner, visitor | .new inner, visitor => by
      rw [visitExpression, TypedExpression.parts, visitExpressions_eq inner]
  | .functionLiteral parameters body, visitor => by
      rw [visitExpression, TypedExpression.parts, visitStatements_eq body, addNested_eq]
      simp only [visitAll, visit, visitAll_append, visitAll_declare]
  | .methodReference _, visitor | .staticMethodCall _, visitor | .whileExpr _ _, visitor
  | .forExpr _ _ _, visitor | .forInExpr _ _ _ _, visitor | .mapLiteral _, visitor
  | .is _, visitor | .returnExpr _, visitor | .throwExpr _, visitor
  | .varDeclarationExpr _ _, visitor | .finalDeclarationExpr _ _, visitor
  | .stringInterpolation _, visitor | .macroExpression _, visitor | .blockExpr _, visitor
  | .metaExpr _ _, visitor | .dollarIdent _, visitor | .compilerSpecific _ _, visitor
  | .switchExpr _ _ _, visitor | .tryExpr _ _ _, visitor | .patternPlaceholder _, visitor
  | .arrayComprehension _ _, visitor | .mapComprehension _ _ _, visitor
  | .await _, visitor => by
      simp only [visitExpression, TypedExpression.parts, visitAll, visit]
  | .literal, visitor | .staticFieldAccess, visitor | .this, visitor | .super, visitor
  | .null, visitor | .breakExpr, visitor | .continueExpr, visitor => by
      simp only [visitExpression, TypedExpression.parts, visitAll]

theorem visitOptional_eq : ∀ (expression : Option TypedExpression)
    (visitor : FreeVariableVisitor),
    visitOptional visitor expression = visitAll visitor (optionalParts expression)
  | none, visitor => by simp only [visitOptional, optionalParts, visitAll]
  | some expression, visitor => by
      rw [visitOptional, optionalParts, visitExpression_eq expression]

theorem visitExpressions_eq : ∀ (expressions : List TypedExpression)
    (visitor : FreeVariableVisitor),
    visitExpressions visitor expressions = visitAll visitor (expressionParts expressions)
  | [], visitor => by simp only [visitExpressions, expressionParts, visitAll]
  | expression :: expressions, visitor => by
      rw [visitExpressions, expressionParts, visitAll_append, visitExpressions_eq expressions,
        visitExpression_eq expression]

end

/-- The uses in a lambda's body, with the lambda's parameters around it. -/
def uses (parameters : List TypedParameter) (body : List TypedStatement) :
    List (Library.Occurrence SymbolId) :=
  (walkAll true ⟨(new parameters).bound, (new parameters).bound⟩ (statementParts body)).1

/-- A symbol that occurs as a variable somewhere in the body with no declaration of it around. -/
def IsFree (parameters : List TypedParameter) (body : List TypedStatement) (symbolId : SymbolId) :
    Prop :=
  FreeIn (uses parameters body) symbolId

def CapturesExactly (parameters : List TypedParameter) (body : List TypedStatement) : Prop :=
  ∀ symbolId, symbolId ∈ (visitStatements (new parameters) body).free ↔
    IsFree parameters body symbolId

theorem mem_free_iff (parameters : List TypedParameter) (body : List TypedStatement)
    (symbolId : SymbolId) : symbolId ∈ (visitStatements (new parameters) body).free ↔
      FoundIn (uses parameters body) symbolId := by
  have tracks := visitAll_tracks (statementParts body) (new parameters)
    ⟨(new parameters).bound, (new parameters).bound⟩ rfl
  rw [visitStatements_eq, tracks.free]
  apply or_iff_right
  exact Finset.notMem_empty symbolId

/-- The captured variables are the free variables exactly when each free use that the visitor misses
is made up for by one of the same symbol that it finds, and each enclosed use that it finds by a
free one of the same symbol. -/
theorem capturesExactly_iff (parameters : List TypedParameter) (body : List TypedStatement) :
    CapturesExactly parameters body ↔
      (∀ use ∈ uses parameters body, Missed use → FoundIn (uses parameters body) use.name) ∧
      ∀ use ∈ uses parameters body, Mistaken use → FreeIn (uses parameters body) use.name := by
  unfold CapturesExactly IsFree
  simp only [mem_free_iff]
  exact found_eq_free_iff

/-- A lambda that prints each element of an array it does not declare. -/
def overElements : List TypedStatement :=
  [.forIn 1 none (.variable 0 0) (.expression (.variable 1 0))]

theorem overElements_dropped : ¬CapturesExactly [] overElements := by
  intro exact
  have found := (exact 0).mpr ⟨⟨0, false, false, false⟩, by
    simp [uses, overElements, statementParts, TypedStatement.parts, TypedExpression.parts, walkAll,
      Library.ScopePart.walk, new], rfl, rfl⟩
  simp [overElements, visitStatements, visitStatement, new] at found

end Rayzor.Captures
