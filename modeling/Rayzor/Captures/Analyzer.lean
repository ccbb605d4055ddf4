import Rayzor.Captures.Visitor
import Rayzor.Library.OrdMap

/-!
Contract: the captured variables of a function literal, for the check of what may cross threads.

Owns: the walk that gathers references and locals, and the mentions of symbols in a syntax tree,
each with where it stands for the walk.
-/

namespace Rayzor.Captures

open Library (OrdMap)

structure CapturedVariable where
  symbolId : SymbolId
  typeId : TypeId
  isMutableCapture : Bool
deriving DecidableEq

namespace CaptureAnalyzer

/-- The symbols referenced so far, with the types first seen, and the local ones. -/
structure Collected where
  referenced : OrdMap SymbolId TypeId
  locals : Finset SymbolId

namespace Collected

def refer (collected : Collected) (symbolId : SymbolId) (exprType : TypeId) : Collected :=
  if collected.referenced.contains symbolId then collected
  else { collected with referenced := collected.referenced.insert symbolId exprType }

def insertLocal (collected : Collected) (symbolId : SymbolId) : Collected :=
  { collected with locals := insert symbolId collected.locals }

/-- Locals gathered in a copy are dropped with it. -/
def dropLocals (collected original : Collected) : Collected :=
  { collected with locals := original.locals }

end Collected

mutual

def collectVariableReferences (collected : Collected) : TypedStatement → Collected
  | .expression expression => collectFromExpression collected expression
  | .varDeclaration symbolId initializer =>
      collectFromOptional (collected.insertLocal symbolId) initializer
  | .assignment target value => collectFromExpression (collectFromExpression collected target) value
  | .ifStatement condition thenBranch elseBranch =>
      collectFromOptionalStatement
        (collectVariableReferences (collectFromExpression collected condition) thenBranch) elseBranch
  | .whileStatement condition body _ =>
      collectVariableReferences (collectFromExpression collected condition) body
  | .forStatement init condition update body =>
      collectVariableReferences (collectFromOptional (collectFromOptional
        (collectFromOptionalStatement collected init) condition) update) body
  | .forIn valueVar keyVar iterable body =>
      collectVariableReferences (collectFromExpression
        (keyVar.toList.foldl Collected.insertLocal (collected.insertLocal valueVar)) iterable) body
  | .returnStatement value => collectFromOptional collected value
  | .throwStatement exception => collectFromExpression collected exception
  | .tryStatement body catchClauses finallyBlock =>
      collectFromOptionalStatement
        (collectFromCatches (collectVariableReferences collected body) catchClauses) finallyBlock
  | .switchStatement discriminant cases defaultCase =>
      collectFromOptionalStatement
        (collectFromCases (collectFromExpression collected discriminant) cases) defaultCase
  | .block statements => collectFromStatements collected statements
  | .patternMatch value patterns =>
      collectFromPatternCases (collectFromExpression collected value) patterns
  | .macroExpansion _ _ => collected
  | .breakStatement | .continueStatement => collected

def collectFromStatements (collected : Collected) : List TypedStatement → Collected
  | [] => collected
  | statement :: statements =>
      collectFromStatements (collectVariableReferences collected statement) statements

def collectFromOptionalStatement (collected : Collected) : Option TypedStatement → Collected
  | none => collected
  | some statement => collectVariableReferences collected statement

def collectFromCatches (collected : Collected) : List TypedCatchClause → Collected
  | [] => collected
  | .mk exceptionVariable _ body :: catchClauses =>
      collectFromCatches ((collectVariableReferences (collected.insertLocal exceptionVariable)
        body).dropLocals collected) catchClauses

def collectFromCases (collected : Collected) : List TypedSwitchCase → Collected
  | [] => collected
  | .mk caseValue _ _ body :: cases =>
      collectFromCases (collectVariableReferences (collectFromExpression collected caseValue) body)
        cases

def collectFromPatternCases (collected : Collected) : List TypedPatternCase → Collected
  | [] => collected
  | .mk _ _ body _ :: patterns =>
      collectFromPatternCases (collectVariableReferences collected body) patterns

def collectFromExpression (collected : Collected) : TypedExpression → Collected
  | .variable symbolId exprType => collected.refer symbolId exprType
  | .fieldAccess object => collectFromExpression collected object
  | .staticFieldAccess => collected
  | .arrayAccess array index => collectFromExpression (collectFromExpression collected array) index
  | .functionCall function arguments =>
      collectFromExpressions (collectFromExpression collected function) arguments
  | .methodCall receiver arguments =>
      collectFromExpressions (collectFromExpression collected receiver) arguments
  | .staticMethodCall arguments => collectFromExpressions collected arguments
  | .binaryOp left right => collectFromExpression (collectFromExpression collected left) right
  | .unaryOp operand => collectFromExpression collected operand
  | .conditional condition thenExpr elseExpr =>
      collectFromOptional
        (collectFromExpression (collectFromExpression collected condition) thenExpr) elseExpr
  | .arrayLiteral elements => collectFromExpressions collected elements
  | .objectLiteral fields => collectFromExpressions collected fields
  | .functionLiteral parameters body =>
      (collectFromStatements
        ((parameters.map TypedParameter.symbolId).foldl Collected.insertLocal collected)
        body).dropLocals collected
  | .cast expression => collectFromExpression collected expression
  | .new arguments => collectFromExpressions collected arguments
  | .blockExpr statements => collectFromStatements collected statements
  | .varDeclarationExpr symbolId initializer | .finalDeclarationExpr symbolId initializer =>
      collectFromExpression (collected.insertLocal symbolId) initializer
  | .switchExpr discriminant cases defaultCase =>
      collectFromOptional
        (collectFromCases (collectFromExpression collected discriminant) cases) defaultCase
  | .tryExpr body catchClauses finallyBlock =>
      collectFromOptional
        (collectFromCatches (collectFromExpression collected body) catchClauses) finallyBlock
  | .await expression => collectFromExpression collected expression
  | _ => collected

def collectFromOptional (collected : Collected) : Option TypedExpression → Collected
  | none => collected
  | some expression => collectFromExpression collected expression

def collectFromExpressions (collected : Collected) : List TypedExpression → Collected
  | [] => collected
  | expression :: expressions =>
      collectFromExpressions (collectFromExpression collected expression) expressions

end

/-- The references gathered from a body, with the literal's parameters as first locals. -/
def collectBody (parameters : List TypedParameter) (body : List TypedStatement) : Collected :=
  collectFromStatements ((parameters.map TypedParameter.symbolId).foldl Collected.insertLocal
    ⟨.empty, ∅⟩) body

def analyzeFunctionLiteral (parameters : List TypedParameter) (body : List TypedStatement) :
    List CapturedVariable :=
  ((collectBody parameters body).referenced.entries.filter fun entry =>
    decide (entry.1 ∉ (collectBody parameters body).locals)).map fun entry =>
      { symbolId := entry.1, typeId := entry.2, isMutableCapture := false }

end CaptureAnalyzer

end Rayzor.Captures
