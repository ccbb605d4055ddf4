import Rayzor.Captures.Syntax
import Rayzor.Library.Scopes

/-!
Contract: the variables a lambda captures.

Owns: the visitor that collects them, and what a syntax tree comes to as uses, declarations and
scopes, with the constructs the visitor does not descend into.
-/

namespace Rayzor.Captures

open Library (ScopePart Visitor)

abbrev FreeVariableVisitor := Visitor SymbolId

def TypedParameter.symbolId : TypedParameter → SymbolId
  | .mk symbolId _ => symbolId

namespace FreeVariableVisitor

def new (parameters : List TypedParameter) : FreeVariableVisitor :=
  ⟨(parameters.map TypedParameter.symbolId).toFinset, ∅⟩

def bind (visitor : FreeVariableVisitor) (symbolId : SymbolId) : FreeVariableVisitor :=
  { visitor with bound := insert symbolId visitor.bound }

/-- The bound variables are as they were when the scope began. -/
def restore (visitor saved : FreeVariableVisitor) : FreeVariableVisitor :=
  { visitor with bound := saved.bound }

/-- What a nested lambda captures is free here too unless it is bound here. -/
def addNested (visitor nested : FreeVariableVisitor) : FreeVariableVisitor :=
  { visitor with free := visitor.free ∪ nested.free.filter (· ∉ visitor.bound) }

mutual

def visitStatements (visitor : FreeVariableVisitor) : List TypedStatement → FreeVariableVisitor
  | [] => visitor
  | statement :: statements => visitStatements (visitStatement visitor statement) statements

def visitStatement (visitor : FreeVariableVisitor) : TypedStatement → FreeVariableVisitor
  | .varDeclaration symbolId initializer => visitOptional (visitor.bind symbolId) initializer
  | .expression expression => visitExpression visitor expression
  | .assignment target value => visitExpression (visitExpression visitor target) value
  | .ifStatement condition thenBranch elseBranch =>
      visitOptionalStatement (visitStatement (visitExpression visitor condition) thenBranch)
        elseBranch
  | .whileStatement condition body _ => visitStatement (visitExpression visitor condition) body
  | .forStatement init condition update body =>
      visitStatement (visitOptional (visitOptional (visitOptionalStatement visitor init) condition)
        update) body
  | .block statements => (visitStatements visitor statements).restore visitor
  | .returnStatement value => visitOptional visitor value
  | .throwStatement exception => visitExpression visitor exception
  | .tryStatement body catchClauses finallyBlock =>
      visitOptionalStatement (visitCatches (visitStatement visitor body) catchClauses) finallyBlock
  | _ => visitor

def visitOptionalStatement (visitor : FreeVariableVisitor) :
    Option TypedStatement → FreeVariableVisitor
  | none => visitor
  | some statement => visitStatement visitor statement

def visitCatches (visitor : FreeVariableVisitor) : List TypedCatchClause → FreeVariableVisitor
  | [] => visitor
  | catchClause :: catchClauses => visitCatches (visitCatch visitor catchClause) catchClauses

def visitCatch (visitor : FreeVariableVisitor) : TypedCatchClause → FreeVariableVisitor
  | .mk exceptionVariable _ body =>
      (visitStatement (visitor.bind exceptionVariable) body).restore visitor

def visitExpression (visitor : FreeVariableVisitor) : TypedExpression → FreeVariableVisitor
  | .variable symbolId _ =>
      if symbolId ∈ visitor.bound then visitor
      else { visitor with free := insert symbolId visitor.free }
  | .fieldAccess object => visitExpression visitor object
  | .arrayAccess array index => visitExpression (visitExpression visitor array) index
  | .functionCall function arguments =>
      visitExpressions (visitExpression visitor function) arguments
  | .methodCall receiver arguments => visitExpressions (visitExpression visitor receiver) arguments
  | .binaryOp left right => visitExpression (visitExpression visitor left) right
  | .unaryOp operand => visitExpression visitor operand
  | .conditional condition thenExpr elseExpr =>
      visitOptional (visitExpression (visitExpression visitor condition) thenExpr) elseExpr
  | .arrayLiteral elements => visitExpressions visitor elements
  | .objectLiteral fields => visitExpressions visitor fields
  | .functionLiteral parameters body =>
      visitor.addNested (visitStatements (new parameters) body)
  | .cast expression => visitExpression visitor expression
  | .new arguments => visitExpressions visitor arguments
  | _ => visitor

def visitOptional (visitor : FreeVariableVisitor) : Option TypedExpression → FreeVariableVisitor
  | none => visitor
  | some expression => visitExpression visitor expression

def visitExpressions (visitor : FreeVariableVisitor) :
    List TypedExpression → FreeVariableVisitor
  | [] => visitor
  | expression :: expressions =>
      visitExpressions (visitExpression visitor expression) expressions

end

end FreeVariableVisitor

mutual

def TypedExpression.parts : TypedExpression → List (ScopePart SymbolId)
  | .variable symbolId _ => [.use symbolId]
  | .literal | .staticFieldAccess | .this | .super | .null | .breakExpr | .continueExpr => []
  | .fieldAccess object => object.parts
  | .arrayAccess array index => array.parts ++ index.parts
  | .functionCall function arguments => function.parts ++ expressionParts arguments
  | .methodCall receiver arguments => receiver.parts ++ expressionParts arguments
  | .methodReference receiver => [.skipped receiver.parts]
  | .staticMethodCall arguments => [.skipped (expressionParts arguments)]
  | .binaryOp left right => left.parts ++ right.parts
  | .unaryOp operand => operand.parts
  | .conditional condition thenExpr elseExpr =>
      condition.parts ++ [.branch thenExpr.parts, .branch (optionalParts elseExpr)]
  | .whileExpr condition thenExpr => [.skipped (condition.parts ++ [.branch thenExpr.parts])]
  | .forExpr loopVariable iterable body =>
      [.skipped (iterable.parts ++ [.scope (.declare loopVariable :: body.parts)])]
  | .forInExpr valueVar keyVar iterable body =>
      [.skipped (iterable.parts ++
        [.scope ((keyVar.toList ++ [valueVar]).map .declare ++ body.parts)])]
  | .arrayLiteral elements => expressionParts elements
  | .mapLiteral entries => [.skipped (entryParts entries)]
  | .objectLiteral fields => expressionParts fields
  | .functionLiteral parameters body =>
      [.scope ((parameters.map TypedParameter.symbolId).map .declare ++
        .skipped (defaultParts parameters) :: statementParts body)]
  | .cast expression => expression.parts
  | .new arguments => expressionParts arguments
  | .is expression => [.skipped expression.parts]
  | .returnExpr value => [.skipped (optionalParts value)]
  | .throwExpr expression => [.skipped expression.parts]
  | .varDeclarationExpr symbolId initializer | .finalDeclarationExpr symbolId initializer =>
      [.skipped (.declare symbolId :: initializer.parts)]
  | .stringInterpolation parts => [.skipped (interpolationParts parts)]
  | .macroExpression arguments => [.skipped (expressionParts arguments)]
  | .blockExpr statements => [.skipped [.scope (statementParts statements)]]
  | .metaExpr metadata expression => [.skipped (metadataParts metadata ++ expression.parts)]
  | .dollarIdent arg => [.skipped (optionalParts arg)]
  | .compilerSpecific code args => [.skipped (code.parts ++ expressionParts args)]
  | .switchExpr discriminant cases defaultCase =>
      [.skipped (discriminant.parts ++ caseParts cases ++ [.branch (optionalParts defaultCase)])]
  | .tryExpr body catchClauses finallyBlock =>
      [.skipped (.branch body.parts :: catchParts catchClauses ++
        [.branch (optionalParts finallyBlock)])]
  | .patternPlaceholder variableBindings => [.skipped (variableBindings.map .declare)]
  | .arrayComprehension forParts expression =>
      [.skipped [.scope (comprehensionParts forParts ++ expression.parts)]]
  | .mapComprehension forParts keyExpr valueExpr =>
      [.skipped [.scope (comprehensionParts forParts ++ keyExpr.parts ++ valueExpr.parts)]]
  | .await expression => [.skipped expression.parts]

def expressionParts : List TypedExpression → List (ScopePart SymbolId)
  | [] => []
  | expression :: expressions => expression.parts ++ expressionParts expressions

def optionalParts : Option TypedExpression → List (ScopePart SymbolId)
  | none => []
  | some expression => expression.parts

def entryParts : List TypedMapEntry → List (ScopePart SymbolId)
  | [] => []
  | .mk key value :: entries => key.parts ++ value.parts ++ entryParts entries

def defaultParts : List TypedParameter → List (ScopePart SymbolId)
  | [] => []
  | .mk _ defaultValue :: parameters => optionalParts defaultValue ++ defaultParts parameters

def interpolationParts : List StringInterpolationPart → List (ScopePart SymbolId)
  | [] => []
  | .string :: parts => interpolationParts parts
  | .expression expression :: parts => expression.parts ++ interpolationParts parts

def metadataParts : List TypedMetadata → List (ScopePart SymbolId)
  | [] => []
  | .mk params :: metadata => expressionParts params ++ metadataParts metadata

def comprehensionParts : List TypedComprehensionFor → List (ScopePart SymbolId)
  | [] => []
  | .mk varSymbol keyVarSymbol iterator :: forParts =>
      iterator.parts ++ (keyVarSymbol.toList ++ [varSymbol]).map .declare ++
        comprehensionParts forParts

def TypedStatement.parts : TypedStatement → List (ScopePart SymbolId)
  | .expression expression => expression.parts
  | .varDeclaration symbolId initializer => .declare symbolId :: optionalParts initializer
  | .assignment target value => target.parts ++ value.parts
  | .ifStatement condition thenBranch elseBranch =>
      condition.parts ++
        [.branch thenBranch.parts, .branch (optionalStatementParts elseBranch)]
  | .whileStatement condition body _ => condition.parts ++ [.branch body.parts]
  | .forStatement init condition update body =>
      [.branch (optionalStatementParts init ++ optionalParts condition ++ optionalParts update ++
        [.branch body.parts])]
  | .forIn valueVar keyVar iterable body =>
      [.skipped (iterable.parts ++
        [.scope ((keyVar.toList ++ [valueVar]).map .declare ++ body.parts)])]
  | .returnStatement value => optionalParts value
  | .throwStatement exception => exception.parts
  | .tryStatement body catchClauses finallyBlock =>
      .branch body.parts :: catchParts catchClauses ++
        [.branch (optionalStatementParts finallyBlock)]
  | .switchStatement discriminant cases defaultCase =>
      [.skipped (discriminant.parts ++ caseParts cases ++
        [.branch (optionalStatementParts defaultCase)])]
  | .breakStatement | .continueStatement => []
  | .block statements => [.scope (statementParts statements)]
  | .patternMatch value patterns => [.skipped (value.parts ++ patternCaseParts patterns)]
  | .macroExpansion macroArgs expandedStatements =>
      [.skipped (expressionParts macroArgs ++ statementParts expandedStatements)]

def statementParts : List TypedStatement → List (ScopePart SymbolId)
  | [] => []
  | statement :: statements => statement.parts ++ statementParts statements

def optionalStatementParts : Option TypedStatement → List (ScopePart SymbolId)
  | none => []
  | some statement => statement.parts

def catchParts : List TypedCatchClause → List (ScopePart SymbolId)
  | [] => []
  | .mk exceptionVariable filter body :: catchClauses =>
      .scope (.declare exceptionVariable :: .skipped (optionalParts filter) :: body.parts) ::
        catchParts catchClauses

def caseParts : List TypedSwitchCase → List (ScopePart SymbolId)
  | [] => []
  | .mk caseValue extraCaseValues guard body :: cases =>
      .scope (caseValue.parts ++ expressionParts extraCaseValues ++ optionalParts guard ++
        body.parts) :: caseParts cases

def patternCaseParts : List TypedPatternCase → List (ScopePart SymbolId)
  | [] => []
  | .mk pattern guard body boundVariables :: patterns =>
      .scope (boundVariables.map .declare ++ pattern.parts ++ optionalParts guard ++
        body.parts) :: patternCaseParts patterns

def TypedPattern.parts : TypedPattern → List (ScopePart SymbolId)
  | .wildcard => []
  | .variable symbolId => [.declare symbolId]
  | .literal value => value.parts
  | .constructor args => patternParts args
  | .array elements rest => patternParts elements ++ optionalPatternParts rest
  | .object fields => patternParts fields
  | .guard pattern guard => pattern.parts ++ guard.parts
  | .extractor extractorExpr valueExpr => extractorExpr.parts ++ valueExpr.parts

def patternParts : List TypedPattern → List (ScopePart SymbolId)
  | [] => []
  | pattern :: patterns => pattern.parts ++ patternParts patterns

def optionalPatternParts : Option TypedPattern → List (ScopePart SymbolId)
  | none => []
  | some pattern => pattern.parts

end

end Rayzor.Captures
