import Mathlib

/-!
Contract: the typed syntax tree of function bodies.

Owns: statements, expressions, patterns and clauses, each with the symbols it declares and the
trees below it.

Does not own: types other than those of variables, names, operators, literal values and source
locations.
-/

namespace Rayzor.Captures

abbrev SymbolId := Nat

abbrev TypeId := Nat

mutual

inductive TypedExpression where
  | literal
  | variable (symbolId : SymbolId) (exprType : TypeId)
  | fieldAccess (object : TypedExpression)
  | staticFieldAccess
  | arrayAccess (array index : TypedExpression)
  | functionCall (function : TypedExpression) (arguments : List TypedExpression)
  | methodCall (receiver : TypedExpression) (arguments : List TypedExpression)
  | methodReference (receiver : TypedExpression)
  | staticMethodCall (arguments : List TypedExpression)
  | binaryOp (left right : TypedExpression)
  | unaryOp (operand : TypedExpression)
  | conditional (condition thenExpr : TypedExpression) (elseExpr : Option TypedExpression)
  | whileExpr (condition thenExpr : TypedExpression)
  | forExpr (loopVariable : SymbolId) (iterable body : TypedExpression)
  | forInExpr (valueVar : SymbolId) (keyVar : Option SymbolId) (iterable body : TypedExpression)
  | arrayLiteral (elements : List TypedExpression)
  | mapLiteral (entries : List TypedMapEntry)
  | objectLiteral (fields : List TypedExpression)
  | functionLiteral (parameters : List TypedParameter) (body : List TypedStatement)
  | cast (expression : TypedExpression)
  | new (arguments : List TypedExpression)
  | this
  | super
  | is (expression : TypedExpression)
  | null
  | returnExpr (value : Option TypedExpression)
  | throwExpr (expression : TypedExpression)
  | breakExpr
  | continueExpr
  | varDeclarationExpr (symbolId : SymbolId) (initializer : TypedExpression)
  | finalDeclarationExpr (symbolId : SymbolId) (initializer : TypedExpression)
  | stringInterpolation (parts : List StringInterpolationPart)
  | macroExpression (arguments : List TypedExpression)
  | blockExpr (statements : List TypedStatement)
  | metaExpr (metadata : List TypedMetadata) (expression : TypedExpression)
  | dollarIdent (arg : Option TypedExpression)
  | compilerSpecific (code : TypedExpression) (args : List TypedExpression)
  | switchExpr (discriminant : TypedExpression) (cases : List TypedSwitchCase)
      (defaultCase : Option TypedExpression)
  | tryExpr (tryExpr : TypedExpression) (catchClauses : List TypedCatchClause)
      (finallyBlock : Option TypedExpression)
  | patternPlaceholder (variableBindings : List SymbolId)
  | arrayComprehension (forParts : List TypedComprehensionFor) (expression : TypedExpression)
  | mapComprehension (forParts : List TypedComprehensionFor) (keyExpr valueExpr : TypedExpression)
  | await (expression : TypedExpression)

inductive TypedMapEntry where
  | mk (key value : TypedExpression)

inductive TypedParameter where
  | mk (symbolId : SymbolId) (defaultValue : Option TypedExpression)

inductive StringInterpolationPart where
  | string
  | expression (expression : TypedExpression)

inductive TypedMetadata where
  | mk (params : List TypedExpression)

inductive TypedComprehensionFor where
  | mk (varSymbol : SymbolId) (keyVarSymbol : Option SymbolId) (iterator : TypedExpression)

inductive TypedStatement where
  | expression (expression : TypedExpression)
  | varDeclaration (symbolId : SymbolId) (initializer : Option TypedExpression)
  | assignment (target value : TypedExpression)
  | ifStatement (condition : TypedExpression) (thenBranch : TypedStatement)
      (elseBranch : Option TypedStatement)
  | whileStatement (condition : TypedExpression) (body : TypedStatement) (doWhile : Bool)
  | forStatement (init : Option TypedStatement) (condition update : Option TypedExpression)
      (body : TypedStatement)
  | forIn (valueVar : SymbolId) (keyVar : Option SymbolId) (iterable : TypedExpression)
      (body : TypedStatement)
  | returnStatement (value : Option TypedExpression)
  | throwStatement (exception : TypedExpression)
  | tryStatement (body : TypedStatement) (catchClauses : List TypedCatchClause)
      (finallyBlock : Option TypedStatement)
  | switchStatement (discriminant : TypedExpression) (cases : List TypedSwitchCase)
      (defaultCase : Option TypedStatement)
  | breakStatement
  | continueStatement
  | block (statements : List TypedStatement)
  | patternMatch (value : TypedExpression) (patterns : List TypedPatternCase)
  | macroExpansion (macroArgs : List TypedExpression) (expandedStatements : List TypedStatement)

inductive TypedCatchClause where
  | mk (exceptionVariable : SymbolId) (filter : Option TypedExpression) (body : TypedStatement)

inductive TypedSwitchCase where
  | mk (caseValue : TypedExpression) (extraCaseValues : List TypedExpression)
      (guard : Option TypedExpression) (body : TypedStatement)

inductive TypedPatternCase where
  | mk (pattern : TypedPattern) (guard : Option TypedExpression) (body : TypedStatement)
      (boundVariables : List SymbolId)

inductive TypedPattern where
  | wildcard
  | variable (symbolId : SymbolId)
  | literal (value : TypedExpression)
  | constructor (args : List TypedPattern)
  | array (elements : List TypedPattern) (rest : Option TypedPattern)
  | object (fields : List TypedPattern)
  | guard (pattern : TypedPattern) (guard : TypedExpression)
  | extractor (extractorExpr valueExpr : TypedExpression)

end

end Rayzor.Captures
