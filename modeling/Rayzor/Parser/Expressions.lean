import Rayzor.Parser.Tokens

/-!
Contract: the recursive descent parser for operands and binary operators.

Owns: the cursor over the tokens; expressions as far as operators build them; and
`parse_binary`, `parse_unary` and `parse_postfix`, with the table of binary operators.

Does not own: primary expressions other than `inline`, whole expressions, call arguments and
metadata, whose parsers are parameters here (`Subparsers`); and which tokens a source has.
-/

namespace Rayzor.Parser.Expressions

/-- `TokenStream`, without the copy it keeps of a token that was split -/
structure TokenStream where
  tokens : List Token
  pos : Nat
  source : List UInt8
  /-- What is left of a token that was split in the context of a type -/
  remainder : Option Token

namespace TokenStream

def peek (stream : TokenStream) : Token :=
  match stream.remainder with
  | some token => token
  | none =>
      match stream.tokens[stream.pos]? with
      | some token => token
      | none => stream.tokens.getLast?.getD (.new .eof 0 0)

def advance (stream : TokenStream) : TokenStream :=
  if stream.remainder.isSome then { stream with remainder := none, pos := stream.pos + 1 }
  else if stream.peek.kind = .eof then stream
  else { stream with pos := stream.pos + 1 }

/-- `at` -/
def isAt (stream : TokenStream) (kind : TokenKind) : Bool := stream.peek.kind = kind

def currentText (stream : TokenStream) : List UInt8 :=
  (stream.source.drop stream.peek.span.start).take
    (stream.peek.span.stop - stream.peek.span.start)

def currentOffset (stream : TokenStream) : Nat := stream.peek.span.start

def spanFrom (stream : TokenStream) (start : Nat) : Span :=
  match stream.remainder with
  | some remainder => ⟨start, remainder.span.start⟩
  | none =>
      if stream.pos = 0 then ⟨start, start⟩
      else ⟨start, (stream.tokens[stream.pos - 1]?.map fun token => token.span.stop).getD start⟩

end TokenStream

inductive UnaryOp where
  | not | neg | bitNot | preIncr | preDecr | postIncr | postDecr | postNot
deriving DecidableEq, Repr

inductive BinaryOp where
  | add | sub | mul | div | mod
  | eq | notEq | lt | le | gt | ge
  | and | or
  | bitAnd | bitOr | bitXor | shl | shr | ushr
  | range | arrow | is | nullCoal | in'
deriving DecidableEq, Repr

/-- What a primary expression is. The parsers of operators look at names and numbers; the
other kinds are whatever a `Node` is, a name with a dollar and an argument included. -/
inductive Primary (Node : Type) where
  | ident (name : List UInt8)
  | dollarIdent (name : List UInt8)
  | int (value : Int)
  | float (bits : UInt64)
  | other (node : Node)

inductive Expr (Node Metadata : Type) where
  | primary (kind : Primary Node) (span : Span)
  | binary (left : Expr Node Metadata) (op : BinaryOp) (right : Expr Node Metadata) (span : Span)
  | unary (op : UnaryOp) (expr : Expr Node Metadata) (span : Span)
  | metadata (data : Metadata) (expr : Expr Node Metadata) (span : Span)
  | field (expr : Expr Node Metadata) (name : List UInt8) (isOptional : Bool) (span : Span)
  | index (expr index : Expr Node Metadata) (span : Span)
  | call (expr : Expr Node Metadata) (args : List (Expr Node Metadata)) (span : Span)
  | arrow (param : List UInt8) (body : Expr Node Metadata) (span : Span)

variable {Node Metadata : Type}

def Expr.span : Expr Node Metadata → Span
  | .primary _ span | .binary _ _ _ span | .unary _ _ span | .metadata _ _ span
  | .field _ _ _ span | .index _ _ span | .call _ _ span | .arrow _ _ span => span

def Expr.operands : Expr Node Metadata → List (Expr Node Metadata)
  | .binary left _ right _ => left.operands ++ right.operands
  | expr => [expr]

def Expr.operators : Expr Node Metadata → List BinaryOp
  | .binary left op right _ => left.operators ++ op :: right.operators
  | _ => []

def Expr.isBinary : Expr Node Metadata → Bool
  | .binary _ _ _ _ => true
  | _ => false

inductive ParseError where
  /-- `expected {kind}, found {found}` -/
  | expected (kind : TokenKind) (found : Token)
  /-- `expected identifier before arrow` -/
  | expectedIdentifier (span : Span)
  /-- An error of another parser -/
  | other (message : String) (span : Span)
  /-- The recursion of the model ended before that of the parser. -/
  | outOfFuel
deriving DecidableEq

structure Subparsers (Node Metadata : Type) where
  primary : TokenStream → Except ParseError (Primary Node × Span × TokenStream)
  expression : TokenStream → Except ParseError (Expr Node Metadata × TokenStream)
  callArgs : TokenStream → Except ParseError (List (Expr Node Metadata) × TokenStream)
  metadataList : TokenStream → List Metadata × TokenStream
  /-- Blocks, conditionals, loops, switches, `try` and functions -/
  statementShaped : Node → Bool

def TokenStream.expect (stream : TokenStream) (kind : TokenKind) :
    Except ParseError (Span × TokenStream) :=
  if stream.isAt kind then .ok (stream.peek.span, stream.advance)
  else .error (.expected kind stream.peek)

/-- The operators that `parse_unary` reads before its operand -/
def prefixOperator : TokenKind → Option UnaryOp
  | .bang => some .not
  | .minus => some .neg
  | .tilde => some .bitNot
  | .plusPlus => some .preIncr
  | .minusMinus => some .preDecr
  | _ => none

/-- The bits of `-(i32::MIN as f64)` -/
def pastMaxInt : UInt64 := 0x41E0000000000000

/-- `-2147483648` is an `Int`, though its digits alone are not. -/
def negated (operandIsIntLit : Bool) (op : UnaryOp) (expr : Expr Node Metadata) (span : Span) :
    Expr Node Metadata :=
  match op, expr with
  | .neg, .primary (.float bits) _ =>
      if operandIsIntLit ∧ bits = pastMaxInt then .primary (.int (-2147483648)) span
      else .unary op expr span
  | _, _ => .unary op expr span

def takesPostfix (parsers : Subparsers Node Metadata) : Expr Node Metadata → Bool
  | .primary (.other node) _ => !parsers.statementShaped node
  | _ => true

/-- The operators that the loop of `parse_postfix` reads after its operand -/
def postfixOperator (parsers : Subparsers Node Metadata) (kind : TokenKind)
    (expr : Expr Node Metadata) : Option UnaryOp :=
  if takesPostfix parsers expr then
    match kind with
    | .plusPlus => some .postIncr
    | .minusMinus => some .postDecr
    | .bang => some .postNot
    | _ => none
  else none

def postfixLoop (parsers : Subparsers Node Metadata) :
    Nat → Expr Node Metadata → TokenStream →
      Except ParseError (Expr Node Metadata × TokenStream)
  | 0, _, _ => .error .outOfFuel
  | fuel + 1, expr, stream =>
      match stream.peek.kind with
      | .dot =>
          let stream := stream.advance
          postfixLoop parsers fuel
            (.field expr stream.currentText false ⟨expr.span.start, stream.peek.span.stop⟩)
            stream.advance
      | .questionDot =>
          let stream := stream.advance
          postfixLoop parsers fuel
            (.field expr stream.currentText true ⟨expr.span.start, stream.peek.span.stop⟩)
            stream.advance
      | .lBracket => do
          let (index, stream) ← parsers.expression stream.advance
          let (bracket, stream) ← stream.expect .rBracket
          postfixLoop parsers fuel (.index expr index ⟨expr.span.start, bracket.stop⟩) stream
      | .lParen => do
          let (args, stream) ← parsers.callArgs stream
          postfixLoop parsers fuel
            (.call expr args ⟨expr.span.start, (stream.spanFrom expr.span.start).stop⟩) stream
      | kind =>
          match postfixOperator parsers kind expr with
          | some op =>
              postfixLoop parsers fuel
                (.unary op expr ⟨expr.span.start, stream.peek.span.stop⟩) stream.advance
          | none => .ok (expr, stream)

/-- Metadata binds to an operand, the first the outermost. -/
def annotated (start : Nat) (metas : List Metadata) (expr : Expr Node Metadata) :
    Expr Node Metadata :=
  metas.foldr (fun data inner => .metadata data inner ⟨start, inner.span.stop⟩) expr

mutual

def parseUnary (parsers : Subparsers Node Metadata) :
    Nat → TokenStream → Except ParseError (Expr Node Metadata × TokenStream)
  | 0, _ => .error .outOfFuel
  | fuel + 1, stream =>
      let start := stream.currentOffset
      let (metas, stream) :=
        if stream.isAt .atSign ∨ stream.isAt .atColon then parsers.metadataList stream
        else ([], stream)
      if metas ≠ [] then do
        let (expr, stream) ← parseUnary parsers fuel stream
        .ok (annotated start metas expr, stream)
      else
        match prefixOperator stream.peek.kind with
        | some op => do
            let operandIsIntLit := stream.advance.isAt .intLit
            let (expr, stream) ← parseUnary parsers fuel stream.advance
            .ok (negated operandIsIntLit op expr ⟨start, expr.span.stop⟩, stream)
        | none => parsePostfix parsers fuel stream

def parsePostfix (parsers : Subparsers Node Metadata) :
    Nat → TokenStream → Except ParseError (Expr Node Metadata × TokenStream)
  | 0, _ => .error .outOfFuel
  | fuel + 1, stream => do
      let (expr, stream) ← parsePrimary parsers fuel stream
      postfixLoop parsers fuel expr stream

/-- `inline` qualifies the operand after it; the other primary expressions are a parameter. -/
def parsePrimary (parsers : Subparsers Node Metadata) :
    Nat → TokenStream → Except ParseError (Expr Node Metadata × TokenStream)
  | 0, _ => .error .outOfFuel
  | fuel + 1, stream =>
      if stream.isAt .kwInline then parseUnary parsers fuel stream.advance
      else do
        let (kind, span, stream) ← parsers.primary stream
        .ok (.primary kind span, stream)

end

/-- The table of `parse_binary`: an operator, its level, and whether it groups from the
right. -/
def binaryOperator : TokenKind → Option (BinaryOp × Nat × Bool)
  | .pipePipe => some (.or, 3, false)
  | .ampAmp => some (.and, 4, false)
  | .dotDotDot => some (.range, 5, false)
  | .eq => some (.eq, 6, false)
  | .notEq => some (.notEq, 6, false)
  | .lt => some (.lt, 6, false)
  | .le => some (.le, 6, false)
  | .gt => some (.gt, 6, false)
  | .ge => some (.ge, 6, false)
  | .kwIs => some (.is, 6, false)
  | .questionQuestion => some (.nullCoal, 7, false)
  | .pipe => some (.bitOr, 8, false)
  | .caret => some (.bitXor, 8, false)
  | .amp => some (.bitAnd, 8, false)
  | .shl => some (.shl, 9, false)
  | .shr => some (.shr, 9, false)
  | .ushr => some (.ushr, 9, false)
  | .plus => some (.add, 10, false)
  | .minus => some (.sub, 10, false)
  | .star => some (.mul, 11, false)
  | .slash => some (.div, 11, false)
  | .percent => some (.mod, 12, false)
  | .kwIn => some (.in', 13, true)
  | _ => none

/-- The name before the arrow of `name -> body` -/
def arrowParam : Expr Node Metadata → Option (List UInt8)
  | .primary (.ident name) _ => some name
  | .primary (.dollarIdent name) _ => some (36 :: name)
  | _ => none

mutual

def parseBinary (parsers : Subparsers Node Metadata) :
    Nat → Nat → TokenStream → Except ParseError (Expr Node Metadata × TokenStream)
  | 0, _, _ => .error .outOfFuel
  | fuel + 1, minPrec, stream => do
      let (left, stream) ← parseUnary parsers fuel stream
      if stream.isAt .arrow then
        match arrowParam left with
        | none => .error (.expectedIdentifier stream.advance.peek.span)
        | some name => do
            let (body, stream) ← parsers.expression stream.advance
            .ok (.arrow name body ⟨left.span.start, body.span.stop⟩, stream)
      else binaryLoop parsers fuel minPrec left stream

def binaryLoop (parsers : Subparsers Node Metadata) :
    Nat → Nat → Expr Node Metadata → TokenStream →
      Except ParseError (Expr Node Metadata × TokenStream)
  | 0, _, _, _ => .error .outOfFuel
  | fuel + 1, minPrec, left, stream =>
      match binaryOperator stream.peek.kind with
      | none => .ok (left, stream)
      | some (op, prec, rightAssoc) =>
          if prec < minPrec then .ok (left, stream)
          else do
            let nextPrec := if rightAssoc then prec else prec + 1
            let (right, stream) ← parseBinary parsers fuel nextPrec stream.advance
            binaryLoop parsers fuel minPrec
              (.binary left op right (left.span.merge right.span)) stream

end

end Rayzor.Parser.Expressions
