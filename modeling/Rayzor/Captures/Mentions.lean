import Rayzor.Captures.Analyzer

/-!
Contract: where the symbols of a function literal are used and declared, as the capture analysis
sees them.
-/

namespace Rayzor.Captures

/-- A use of a variable, which the walk comes to or does not, or a declaration, which ends among
the locals of the walk or does not. -/
inductive Mention where
  | use (symbolId : SymbolId) (exprType : TypeId) (visited : Bool)
  | declare (symbolId : SymbolId) (kept : Bool)
deriving DecidableEq

namespace Mention

/-- A mention in a part that is walked with a copy of the locals. -/
def inCopy : Mention → Mention
  | .use symbolId exprType visited => .use symbolId exprType visited
  | .declare symbolId _ => .declare symbolId false

/-- A mention in a part that is not walked. -/
def passedOver : Mention → Mention
  | .use symbolId exprType _ => .use symbolId exprType false
  | .declare symbolId _ => .declare symbolId false

end Mention

def declarations (symbols : List SymbolId) : List Mention := symbols.map (.declare · true)

mutual

def TypedExpression.mentions : TypedExpression → List Mention
  | .variable symbolId exprType => [.use symbolId exprType true]
  | .literal | .staticFieldAccess | .this | .super | .null | .breakExpr | .continueExpr => []
  | .fieldAccess object => object.mentions
  | .arrayAccess array index => array.mentions ++ index.mentions
  | .functionCall function arguments => function.mentions ++ expressionMentions arguments
  | .methodCall receiver arguments => receiver.mentions ++ expressionMentions arguments
  | .methodReference receiver => receiver.mentions.map .passedOver
  | .staticMethodCall arguments => expressionMentions arguments
  | .binaryOp left right => left.mentions ++ right.mentions
  | .unaryOp operand => operand.mentions
  | .conditional condition thenExpr elseExpr =>
      condition.mentions ++ thenExpr.mentions ++ optionalMentions elseExpr
  | .whileExpr condition thenExpr => (condition.mentions ++ thenExpr.mentions).map .passedOver
  | .forExpr loopVariable iterable body =>
      (declarations [loopVariable] ++ iterable.mentions ++ body.mentions).map .passedOver
  | .forInExpr valueVar keyVar iterable body =>
      (declarations (valueVar :: keyVar.toList) ++ iterable.mentions ++ body.mentions).map
        .passedOver
  | .arrayLiteral elements => expressionMentions elements
  | .mapLiteral entries => (entryMentions entries).map .passedOver
  | .objectLiteral fields => expressionMentions fields
  | .functionLiteral parameters body =>
      (declarations (parameters.map TypedParameter.symbolId) ++
        (defaultMentions parameters).map Mention.passedOver ++ statementMentions body).map .inCopy
  | .cast expression => expression.mentions
  | .new arguments => expressionMentions arguments
  | .is expression => expression.mentions.map .passedOver
  | .returnExpr value => (optionalMentions value).map .passedOver
  | .throwExpr expression => expression.mentions.map .passedOver
  | .varDeclarationExpr symbolId initializer | .finalDeclarationExpr symbolId initializer =>
      declarations [symbolId] ++ initializer.mentions
  | .stringInterpolation parts => (interpolationMentions parts).map .passedOver
  | .macroExpression arguments => (expressionMentions arguments).map .passedOver
  | .blockExpr statements => statementMentions statements
  | .metaExpr metadata expression =>
      (metadataMentions metadata ++ expression.mentions).map .passedOver
  | .dollarIdent arg => (optionalMentions arg).map .passedOver
  | .compilerSpecific code args => (code.mentions ++ expressionMentions args).map .passedOver
  | .switchExpr discriminant cases defaultCase =>
      discriminant.mentions ++ caseMentions cases ++ optionalMentions defaultCase
  | .tryExpr body catchClauses finallyBlock =>
      body.mentions ++ catchMentions catchClauses ++ optionalMentions finallyBlock
  | .patternPlaceholder variableBindings => (declarations variableBindings).map .passedOver
  | .arrayComprehension forParts expression =>
      (comprehensionMentions forParts ++ expression.mentions).map .passedOver
  | .mapComprehension forParts keyExpr valueExpr =>
      (comprehensionMentions forParts ++ keyExpr.mentions ++ valueExpr.mentions).map .passedOver
  | .await expression => expression.mentions

def expressionMentions : List TypedExpression → List Mention
  | [] => []
  | expression :: expressions => expression.mentions ++ expressionMentions expressions

def optionalMentions : Option TypedExpression → List Mention
  | none => []
  | some expression => expression.mentions

def entryMentions : List TypedMapEntry → List Mention
  | [] => []
  | .mk key value :: entries => key.mentions ++ value.mentions ++ entryMentions entries

def defaultMentions : List TypedParameter → List Mention
  | [] => []
  | .mk _ defaultValue :: parameters => optionalMentions defaultValue ++ defaultMentions parameters

def interpolationMentions : List StringInterpolationPart → List Mention
  | [] => []
  | .string :: parts => interpolationMentions parts
  | .expression expression :: parts => expression.mentions ++ interpolationMentions parts

def metadataMentions : List TypedMetadata → List Mention
  | [] => []
  | .mk params :: metadata => expressionMentions params ++ metadataMentions metadata

def comprehensionMentions : List TypedComprehensionFor → List Mention
  | [] => []
  | .mk varSymbol keyVarSymbol iterator :: forParts =>
      iterator.mentions ++ declarations (varSymbol :: keyVarSymbol.toList) ++
        comprehensionMentions forParts

def TypedStatement.mentions : TypedStatement → List Mention
  | .expression expression => expression.mentions
  | .varDeclaration symbolId initializer => declarations [symbolId] ++ optionalMentions initializer
  | .assignment target value => target.mentions ++ value.mentions
  | .ifStatement condition thenBranch elseBranch =>
      condition.mentions ++ thenBranch.mentions ++ optionalStatementMentions elseBranch
  | .whileStatement condition body _ => condition.mentions ++ body.mentions
  | .forStatement init condition update body =>
      optionalStatementMentions init ++ optionalMentions condition ++ optionalMentions update ++
        body.mentions
  | .forIn valueVar keyVar iterable body =>
      declarations (valueVar :: keyVar.toList) ++ iterable.mentions ++ body.mentions
  | .returnStatement value => optionalMentions value
  | .throwStatement exception => exception.mentions
  | .tryStatement body catchClauses finallyBlock =>
      body.mentions ++ catchMentions catchClauses ++ optionalStatementMentions finallyBlock
  | .switchStatement discriminant cases defaultCase =>
      discriminant.mentions ++ caseMentions cases ++ optionalStatementMentions defaultCase
  | .breakStatement | .continueStatement => []
  | .block statements => statementMentions statements
  | .patternMatch value patterns => value.mentions ++ patternCaseMentions patterns
  | .macroExpansion macroArgs expandedStatements =>
      (expressionMentions macroArgs ++ statementMentions expandedStatements).map .passedOver

def statementMentions : List TypedStatement → List Mention
  | [] => []
  | statement :: statements => statement.mentions ++ statementMentions statements

def optionalStatementMentions : Option TypedStatement → List Mention
  | none => []
  | some statement => statement.mentions

def catchMentions : List TypedCatchClause → List Mention
  | [] => []
  | .mk exceptionVariable filter body :: catchClauses =>
      (declarations [exceptionVariable] ++ (optionalMentions filter).map Mention.passedOver ++
        body.mentions).map .inCopy ++ catchMentions catchClauses

def caseMentions : List TypedSwitchCase → List Mention
  | [] => []
  | .mk caseValue extraCaseValues guard body :: cases =>
      caseValue.mentions ++
        (expressionMentions extraCaseValues ++ optionalMentions guard).map .passedOver ++
        body.mentions ++ caseMentions cases

def patternCaseMentions : List TypedPatternCase → List Mention
  | [] => []
  | .mk pattern guard body boundVariables :: patterns =>
      (declarations boundVariables ++ pattern.mentions ++ optionalMentions guard).map
        .passedOver ++ body.mentions ++ patternCaseMentions patterns

def TypedPattern.mentions : TypedPattern → List Mention
  | .wildcard => []
  | .variable symbolId => declarations [symbolId]
  | .literal value => value.mentions
  | .constructor args => patternMentions args
  | .array elements rest => patternMentions elements ++ optionalPatternMentions rest
  | .object fields => patternMentions fields
  | .guard pattern guard => pattern.mentions ++ guard.mentions
  | .extractor extractorExpr valueExpr => extractorExpr.mentions ++ valueExpr.mentions

def patternMentions : List TypedPattern → List Mention
  | [] => []
  | pattern :: patterns => pattern.mentions ++ patternMentions patterns

def optionalPatternMentions : Option TypedPattern → List Mention
  | none => []
  | some pattern => pattern.mentions

end

/-- What a function literal mentions. Defaults of its own parameters are not walked. -/
def literalMentions (parameters : List TypedParameter) (body : List TypedStatement) :
    List Mention :=
  declarations (parameters.map TypedParameter.symbolId) ++
    (defaultMentions parameters).map .passedOver ++ statementMentions body

namespace CaptureAnalyzer

namespace Collected

def gather (collected : Collected) : Mention → Collected
  | .use symbolId exprType true => collected.refer symbolId exprType
  | .declare symbolId true => collected.insertLocal symbolId
  | .use _ _ false | .declare _ false => collected

def gatherAll (collected : Collected) (mentions : List Mention) : Collected :=
  mentions.foldl gather collected

variable (collected : Collected)

@[simp] theorem gatherAll_nil : collected.gatherAll [] = collected := rfl

theorem gatherAll_append (first second : List Mention) :
    collected.gatherAll (first ++ second) = (collected.gatherAll first).gatherAll second :=
  List.foldl_append

theorem gatherAll_declarations (symbols : List SymbolId) :
    collected.gatherAll (declarations symbols) = symbols.foldl insertLocal collected := by
  unfold gatherAll declarations
  rw [List.foldl_map]
  rfl

theorem gatherAll_passedOver (mentions : List Mention) :
    collected.gatherAll (mentions.map .passedOver) = collected := by
  induction mentions with
  | nil => rfl
  | cons mention mentions ih =>
      cases mention <;> exact ih

theorem refer_locals (symbolId : SymbolId) (exprType : TypeId) :
    (collected.refer symbolId exprType).locals = collected.locals := by
  unfold refer
  split <;> rfl

theorem refer_referenced {copy : Collected} (same : copy.referenced = collected.referenced)
    (symbolId : SymbolId) (exprType : TypeId) :
    (copy.refer symbolId exprType).referenced =
      (collected.refer symbolId exprType).referenced := by
  unfold refer
  rw [same]
  split
  · exact same
  · rfl

theorem gatherAll_inCopy (mentions : List Mention) : ∀ {copy collected : Collected},
    copy.referenced = collected.referenced →
      (copy.gatherAll mentions).dropLocals collected =
        collected.gatherAll (mentions.map .inCopy) := by
  induction mentions with
  | nil =>
      intro copy collected same
      unfold dropLocals
      rw [List.map_nil, gatherAll_nil, gatherAll_nil, same]
  | cons mention mentions ih =>
      intro copy collected same
      cases mention with
      | declare symbolId kept =>
          cases kept
          · exact ih same
          · exact @ih (copy.insertLocal symbolId) collected same
      | use symbolId exprType visited =>
          cases visited
          · exact ih same
          · have next := @ih (copy.refer symbolId exprType)
              (collected.refer symbolId exprType) (collected.refer_referenced same _ _)
            have kept := collected.refer_locals symbolId exprType
            unfold dropLocals at next ⊢
            rw [kept] at next
            exact next

end Collected

open Collected

mutual

theorem collectFromStatements_eq : ∀ (statements : List TypedStatement) (collected : Collected),
    collectFromStatements collected statements = collected.gatherAll (statementMentions statements)
  | [], collected => by simp only [collectFromStatements, statementMentions, gatherAll_nil]
  | statement :: statements, collected => by
      rw [collectFromStatements, statementMentions, gatherAll_append,
        collectFromStatements_eq statements, collectVariableReferences_eq statement]

theorem collectVariableReferences_eq : ∀ (statement : TypedStatement) (collected : Collected),
    collectVariableReferences collected statement = collected.gatherAll statement.mentions
  | .expression expression, collected => by
      rw [collectVariableReferences, TypedStatement.mentions, collectFromExpression_eq expression]
  | .varDeclaration symbolId initializer, collected => by
      rw [collectVariableReferences, TypedStatement.mentions, gatherAll_append,
        collectFromOptional_eq initializer]
      rfl
  | .assignment target value, collected => by
      rw [collectVariableReferences, TypedStatement.mentions, gatherAll_append,
        collectFromExpression_eq value, collectFromExpression_eq target]
  | .ifStatement condition thenBranch elseBranch, collected => by
      rw [collectVariableReferences, TypedStatement.mentions, gatherAll_append, gatherAll_append,
        collectFromOptionalStatement_eq elseBranch, collectVariableReferences_eq thenBranch,
        collectFromExpression_eq condition]
  | .whileStatement condition body doWhile, collected => by
      rw [collectVariableReferences, TypedStatement.mentions, gatherAll_append,
        collectVariableReferences_eq body, collectFromExpression_eq condition]
  | .forStatement init condition update body, collected => by
      rw [collectVariableReferences, TypedStatement.mentions, gatherAll_append, gatherAll_append,
        gatherAll_append, collectVariableReferences_eq body, collectFromOptional_eq update,
        collectFromOptional_eq condition, collectFromOptionalStatement_eq init]
  | .forIn valueVar keyVar iterable body, collected => by
      rw [collectVariableReferences, TypedStatement.mentions, gatherAll_append, gatherAll_append,
        collectVariableReferences_eq body, collectFromExpression_eq iterable,
        gatherAll_declarations, List.foldl_cons]
  | .returnStatement value, collected => by
      rw [collectVariableReferences, TypedStatement.mentions, collectFromOptional_eq value]
  | .throwStatement exception, collected => by
      rw [collectVariableReferences, TypedStatement.mentions, collectFromExpression_eq exception]
  | .tryStatement body catchClauses finallyBlock, collected => by
      rw [collectVariableReferences, TypedStatement.mentions, gatherAll_append, gatherAll_append,
        collectFromOptionalStatement_eq finallyBlock, collectFromCatches_eq catchClauses,
        collectVariableReferences_eq body]
  | .switchStatement discriminant cases defaultCase, collected => by
      rw [collectVariableReferences, TypedStatement.mentions, gatherAll_append, gatherAll_append,
        collectFromOptionalStatement_eq defaultCase, collectFromCases_eq cases,
        collectFromExpression_eq discriminant]
  | .block statements, collected => by
      rw [collectVariableReferences, TypedStatement.mentions, collectFromStatements_eq statements]
  | .patternMatch value patterns, collected => by
      rw [collectVariableReferences, TypedStatement.mentions, gatherAll_append,
        collectFromPatternCases_eq patterns, collectFromExpression_eq value]
  | .macroExpansion macroArgs expandedStatements, collected => by
      rw [collectVariableReferences, TypedStatement.mentions, gatherAll_passedOver]
  | .breakStatement, collected | .continueStatement, collected => by
      simp only [collectVariableReferences, TypedStatement.mentions, gatherAll_nil]

theorem collectFromOptionalStatement_eq : ∀ (statement : Option TypedStatement)
    (collected : Collected), collectFromOptionalStatement collected statement =
      collected.gatherAll (optionalStatementMentions statement)
  | none, collected => by
      simp only [collectFromOptionalStatement, optionalStatementMentions, gatherAll_nil]
  | some statement, collected => by
      rw [collectFromOptionalStatement, optionalStatementMentions,
        collectVariableReferences_eq statement]

theorem collectFromCatches_eq : ∀ (catchClauses : List TypedCatchClause) (collected : Collected),
    collectFromCatches collected catchClauses = collected.gatherAll (catchMentions catchClauses)
  | [], collected => by simp only [collectFromCatches, catchMentions, gatherAll_nil]
  | .mk exceptionVariable filter body :: catchClauses, collected => by
      have inClause := @gatherAll_inCopy (declarations [exceptionVariable] ++
        (optionalMentions filter).map .passedOver ++ body.mentions) collected collected rfl
      rw [gatherAll_append, gatherAll_append, gatherAll_passedOver,
        gatherAll_declarations] at inClause
      rw [collectFromCatches, catchMentions, gatherAll_append, collectFromCatches_eq catchClauses,
        collectVariableReferences_eq body, ← inClause]
      rfl

theorem collectFromCases_eq : ∀ (cases : List TypedSwitchCase) (collected : Collected),
    collectFromCases collected cases = collected.gatherAll (caseMentions cases)
  | [], collected => by simp only [collectFromCases, caseMentions, gatherAll_nil]
  | .mk caseValue extraCaseValues guard body :: cases, collected => by
      rw [collectFromCases, caseMentions, gatherAll_append, gatherAll_append, gatherAll_append,
        gatherAll_passedOver, collectFromCases_eq cases, collectVariableReferences_eq body,
        collectFromExpression_eq caseValue]

theorem collectFromPatternCases_eq : ∀ (patterns : List TypedPatternCase) (collected : Collected),
    collectFromPatternCases collected patterns =
      collected.gatherAll (patternCaseMentions patterns)
  | [], collected => by simp only [collectFromPatternCases, patternCaseMentions, gatherAll_nil]
  | .mk pattern guard body boundVariables :: patterns, collected => by
      rw [collectFromPatternCases, patternCaseMentions, gatherAll_append, gatherAll_append,
        gatherAll_passedOver, collectFromPatternCases_eq patterns,
        collectVariableReferences_eq body]

theorem collectFromExpression_eq : ∀ (expression : TypedExpression) (collected : Collected),
    collectFromExpression collected expression = collected.gatherAll expression.mentions
  | .variable symbolId exprType, collected => by
      rw [collectFromExpression, TypedExpression.mentions]
      rfl
  | .fieldAccess inner, collected | .unaryOp inner, collected | .cast inner, collected
  | .await inner, collected => by
      rw [collectFromExpression, TypedExpression.mentions, collectFromExpression_eq inner]
  | .arrayAccess left right, collected | .binaryOp left right, collected => by
      rw [collectFromExpression, TypedExpression.mentions, gatherAll_append,
        collectFromExpression_eq right, collectFromExpression_eq left]
  | .functionCall callee arguments, collected | .methodCall callee arguments, collected => by
      rw [collectFromExpression, TypedExpression.mentions, gatherAll_append,
        collectFromExpressions_eq arguments, collectFromExpression_eq callee]
  | .staticMethodCall inner, collected | .arrayLiteral inner, collected
  | .objectLiteral inner, collected | .new inner, collected => by
      rw [collectFromExpression, TypedExpression.mentions, collectFromExpressions_eq inner]
  | .conditional condition thenExpr elseExpr, collected => by
      rw [collectFromExpression, TypedExpression.mentions, gatherAll_append, gatherAll_append,
        collectFromOptional_eq elseExpr, collectFromExpression_eq thenExpr,
        collectFromExpression_eq condition]
  | .functionLiteral parameters body, collected => by
      have inLiteral := @gatherAll_inCopy (declarations (parameters.map TypedParameter.symbolId) ++
        (defaultMentions parameters).map .passedOver ++ statementMentions body) collected collected
        rfl
      rw [gatherAll_append, gatherAll_append, gatherAll_passedOver,
        gatherAll_declarations] at inLiteral
      rw [collectFromExpression, TypedExpression.mentions, collectFromStatements_eq body,
        inLiteral]
  | .blockExpr statements, collected => by
      rw [collectFromExpression, TypedExpression.mentions, collectFromStatements_eq statements]
  | .varDeclarationExpr symbolId initializer, collected
  | .finalDeclarationExpr symbolId initializer, collected => by
      rw [collectFromExpression, TypedExpression.mentions, gatherAll_append,
        collectFromExpression_eq initializer]
      rfl
  | .switchExpr discriminant cases defaultCase, collected => by
      rw [collectFromExpression, TypedExpression.mentions, gatherAll_append, gatherAll_append,
        collectFromOptional_eq defaultCase, collectFromCases_eq cases,
        collectFromExpression_eq discriminant]
  | .tryExpr body catchClauses finallyBlock, collected => by
      rw [collectFromExpression, TypedExpression.mentions, gatherAll_append, gatherAll_append,
        collectFromOptional_eq finallyBlock, collectFromCatches_eq catchClauses,
        collectFromExpression_eq body]
  | .methodReference _, collected | .whileExpr _ _, collected | .forExpr _ _ _, collected
  | .forInExpr _ _ _ _, collected | .mapLiteral _, collected | .is _, collected
  | .returnExpr _, collected | .throwExpr _, collected | .stringInterpolation _, collected
  | .macroExpression _, collected | .metaExpr _ _, collected | .dollarIdent _, collected
  | .compilerSpecific _ _, collected | .patternPlaceholder _, collected
  | .arrayComprehension _ _, collected | .mapComprehension _ _ _, collected => by
      simp only [collectFromExpression, TypedExpression.mentions, gatherAll_passedOver]
  | .literal, collected | .staticFieldAccess, collected | .this, collected | .super, collected
  | .null, collected | .breakExpr, collected | .continueExpr, collected => by
      simp only [collectFromExpression, TypedExpression.mentions, gatherAll_nil]

theorem collectFromOptional_eq : ∀ (expression : Option TypedExpression) (collected : Collected),
    collectFromOptional collected expression = collected.gatherAll (optionalMentions expression)
  | none, collected => by simp only [collectFromOptional, optionalMentions, gatherAll_nil]
  | some expression, collected => by
      rw [collectFromOptional, optionalMentions, collectFromExpression_eq expression]

theorem collectFromExpressions_eq : ∀ (expressions : List TypedExpression)
    (collected : Collected),
    collectFromExpressions collected expressions =
      collected.gatherAll (expressionMentions expressions)
  | [], collected => by simp only [collectFromExpressions, expressionMentions, gatherAll_nil]
  | expression :: expressions, collected => by
      rw [collectFromExpressions, expressionMentions, gatherAll_append,
        collectFromExpressions_eq expressions, collectFromExpression_eq expression]

end

theorem collectBody_eq (parameters : List TypedParameter) (body : List TypedStatement) :
    collectBody parameters body =
      Collected.gatherAll ⟨.empty, ∅⟩ (literalMentions parameters body) := by
  unfold collectBody literalMentions
  rw [collectFromStatements_eq, gatherAll_append, gatherAll_append, gatherAll_passedOver,
    gatherAll_declarations]

end CaptureAnalyzer

end Rayzor.Captures
