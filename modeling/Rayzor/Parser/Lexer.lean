import Rayzor.Library.Outcome
import Rayzor.Library.Text
import Rayzor.Parser.Tokens

/-!
Contract: the lexer of a source.

Owns: white space and comments (`skipWhitespaceAndComments`), one token
(`nextToken`) with the scanners for strings, numbers, identifiers, regexes and
inline markup, and the loop over the source (`tokenize`).

Does not own: what the tokens mean. An index outside the source and a loop
without an end are failures of the model, told apart from the lexer's own.
-/

namespace Rayzor.Parser

open Library Library.Text

structure LexError where
  message : String
  offset : Nat
  deriving DecidableEq

/-- How lexing fails: with an error of the lexer, by an index outside the source,
or by a loop that takes more rounds than the source has bytes. -/
inductive Fault where
  | lex (error : LexError)
  | outOfBounds
  | outOfFuel
  deriving DecidableEq

abbrev Lexing (α : Type) := Except Fault α

def lexError {α : Type} (message : String) (offset : Nat) : Lexing α :=
  .error (.lex ⟨message, offset⟩)

/-! ### Bytes -/

def byte (c : Char) : UInt8 := UInt8.ofNat c.toNat

def isDigitByte (b : UInt8) : Bool := byte '0' ≤ b && b ≤ byte '9'

def isAlphaByte (b : UInt8) : Bool :=
  (byte 'a' ≤ b && b ≤ byte 'z') || (byte 'A' ≤ b && b ≤ byte 'Z')

def isHexByte (b : UInt8) : Bool :=
  isDigitByte b || (byte 'a' ≤ b && b ≤ byte 'f') || (byte 'A' ≤ b && b ≤ byte 'F')

def isIdentByte (b : UInt8) : Bool := isAlphaByte b || isDigitByte b || b == byte '_'

/-- `u8::is_ascii_whitespace`. -/
def isSpaceByte (b : UInt8) : Bool := b == 0x20 || b == 0x09 || b == 0x0A || b == 0x0C || b == 0x0D

def quoteByte : UInt8 := 0x22

def apostropheByte : UInt8 := 0x27

def backslashByte : UInt8 := 0x5C

def isQuoteByte (b : UInt8) : Bool := b == quoteByte || b == apostropheByte

/-! ### Reading the source -/

variable (source : List UInt8)

def byteAt (index : Nat) : Lexing UInt8 :=
  match source[index]? with
  | some b => .ok b
  | none => .error .outOfBounds

def sliceOf (start stop : Nat) : Lexing (List UInt8) :=
  if start ≤ stop ∧ stop ≤ source.length then .ok ((source.drop start).take (stop - start))
  else .error .outOfBounds

/-- `peek` and `peek_at`: zero behind the end. -/
def peekAt (index : Nat) : UInt8 := (source[index]?).getD 0

def holdsAt (test : UInt8 → Bool) (pos : Nat) : Bool := (source[pos]?).any test

def skipWhile (test : UInt8 → Bool) (pos : Nat) : Nat :=
  pos + ((source.drop pos).takeWhile test).length

def startsAt (mark : String) (pos : Nat) : Lexing Bool := do
  return (Utf8.encode mark.toList).isPrefixOf (← sliceOf source pos source.length)

/-! ### White space and comments -/

def skipBlockComment : Nat → Nat → Nat → Lexing Nat
  | 0, _, _ => .error .outOfFuel
  | fuel + 1, depth, pos =>
      if pos + 1 < source.length ∧ 0 < depth then do
        let b ← byteAt source pos
        let next ← byteAt source (pos + 1)
        if b = byte '/' ∧ next = byte '*' then skipBlockComment fuel (depth + 1) (pos + 2)
        else if b = byte '*' ∧ next = byte '/' then skipBlockComment fuel (depth - 1) (pos + 2)
        else skipBlockComment fuel depth (pos + 1)
      else .ok pos

def skipWhitespaceAndComments : Nat → Nat → Lexing Nat
  | 0, _ => .error .outOfFuel
  | fuel + 1, pos =>
      let pos := skipWhile source isSpaceByte pos
      if source.length ≤ pos then .ok pos
      else if peekAt source pos = byte '/' ∧ peekAt source (pos + 1) = byte '/' then
        skipWhitespaceAndComments fuel (skipWhile source (· != byte '\n') (pos + 2))
      else if peekAt source pos = byte '/' ∧ peekAt source (pos + 1) = byte '*' then do
        skipWhitespaceAndComments fuel
          (← skipBlockComment source (source.length + 1) 1 (pos + 2))
      else .ok pos

/-! ### Strings and regexes -/

mutual

/-- Behind the opening quote, up to behind the closing one. -/
def lexString : Nat → UInt8 → Nat → Nat → Lexing Nat
  | 0, _, _, _ => .error .outOfFuel
  | fuel + 1, quote, start, pos =>
      if source.length ≤ pos then lexError "unterminated string literal" start
      else do
        let ch ← byteAt source pos
        if ch = backslashByte then
          lexString fuel quote start (if pos + 1 < source.length then pos + 2 else pos + 1)
        else if ch = quote then .ok (pos + 1)
        else if quote = apostropheByte ∧ ch = byte '$' ∧ source[pos + 1]? = some (byte '{') then do
          lexString fuel quote start (← skipInterpolatedCode fuel start 1 (pos + 2))
        else lexString fuel quote start (pos + 1)

/-- Up to behind the `}` that closes an interpolation. -/
def skipInterpolatedCode : Nat → Nat → Nat → Nat → Lexing Nat
  | 0, _, _, _ => .error .outOfFuel
  | fuel + 1, start, depth, pos =>
      if pos < source.length then do
        let ch ← byteAt source pos
        if ch = byte '{' then skipInterpolatedCode fuel start (depth + 1) (pos + 1)
        else if ch = byte '}' then
          if depth - 1 = 0 then .ok (pos + 1)
          else skipInterpolatedCode fuel start (depth - 1) (pos + 1)
        else if isQuoteByte ch then do
          skipInterpolatedCode fuel start depth (← lexString fuel ch pos (pos + 1))
        else skipInterpolatedCode fuel start depth (pos + 1)
      else lexError "unterminated string literal" start

end

/-- Behind the opening `~/`, up to behind the flags. -/
def lexRegex : Nat → Nat → Nat → Lexing Nat
  | 0, _, _ => .error .outOfFuel
  | fuel + 1, start, pos =>
      if source.length ≤ pos then lexError "unterminated regex literal" start
      else do
        let ch ← byteAt source pos
        if ch = backslashByte then lexRegex fuel start (pos + 2)
        else if ch = byte '/' then .ok (skipWhile source isAlphaByte (pos + 1))
        else lexRegex fuel start (pos + 1)

/-! ### Numbers -/

inductive NumSuffix where
  | int
  | float
  deriving DecidableEq

def suffixes : List (String × NumSuffix) :=
  [("i32", .int), ("u32", .int), ("i64", .int), ("f64", .float)]

/-- A type suffix behind the digits, with no identifier byte behind it. -/
def lexNumberSuffix (pos : Nat) : Option NumSuffix × Nat :=
  match suffixes.find? fun suffix =>
      (Utf8.encode suffix.1.toList).isPrefixOf (source.drop pos) &&
        !holdsAt source isIdentByte (pos + 3) with
  | some suffix => (some suffix.2, pos + 3)
  | none => (none, pos)

def isSignByte (b : UInt8) : Bool := b == byte '+' || b == byte '-'

/-- Where the digits of an exponent start, behind its `e`. -/
def exponentDigits (pos : Nat) : Option Nat :=
  let probe := if holdsAt source isSignByte pos then pos + 1 else pos
  if holdsAt source isDigitByte probe then some probe else none

def isGroupedDigit (b : UInt8) : Bool := isDigitByte b || b == byte '_'

def isExponentMark (b : UInt8) : Bool := b == byte 'e' || b == byte 'E'

def finishNumber (start : Nat) (isFloat : Bool) (pos : Nat) : Token :=
  let exponent := if holdsAt source isExponentMark pos then exponentDigits source (pos + 1) else none
  let isFloat := isFloat || exponent.isSome
  let pos := match exponent with
    | some digits => skipWhile source isGroupedDigit digits
    | none => pos
  let suffix := lexNumberSuffix source pos
  if isFloat || suffix.1 == some .float then Token.new .floatLit start suffix.2
  else Token.new .intLit start suffix.2

/-- The dot of a fraction, or a dot at the end of a float: not one of a range or
of a field access. -/
def fractionEnd (pos : Nat) : Option Nat :=
  if holdsAt source (· == byte '.') pos then
    let next := peekAt source (pos + 1)
    let dotThenExponent := isExponentMark next && (exponentDigits source (pos + 2)).isSome
    if isDigitByte next then some (skipWhile source isGroupedDigit (pos + 1))
    else if (!isAlphaByte next && next != byte '_' && next != byte '.') || dotThenExponent then
      some (pos + 1)
    else none
  else none

def lexNumber (start pos : Nat) : Lexing Token := do
  let first ← byteAt source start
  if first = byte '0' ∧ holdsAt source (fun b => b == byte 'x' || b == byte 'X') pos then
    let pos := skipWhile source (fun b => isHexByte b || b == byte '_') (pos + 1)
    return Token.new .intLit start (lexNumberSuffix source pos).2
  else if first = byte '0' ∧ holdsAt source (fun b => b == byte 'b' || b == byte 'B') pos ∧
      holdsAt source (fun b => b == byte '0' || b == byte '1') (pos + 1) then
    let pos := skipWhile source (fun b => b == byte '0' || b == byte '1' || b == byte '_') (pos + 1)
    return Token.new .intLit start (lexNumberSuffix source pos).2
  else
    let pos := skipWhile source isGroupedDigit pos
    match fractionEnd source pos with
    | some pos => return finishNumber source start true pos
    | none => return finishNumber source start false pos

/-! ### Identifiers -/

def lexIdentifier (start pos : Nat) : Lexing Token := do
  let pos := skipWhile source isIdentByte pos
  let text ← sliceOf source start pos
  return Token.new ((keywordFromStr text).getD .ident) start pos

/-! ### Operators -/

/-- The kind for the byte that follows, with that byte taken; else the other kind. -/
def choose (next : UInt8) (choices : List (Char × TokenKind)) (otherwise : TokenKind) :
    TokenKind × Nat :=
  match choices.find? fun choice => byte choice.1 == next with
  | some choice => (choice.2, 1)
  | none => (otherwise, 0)

/-- The kinds with one byte more, when that byte follows. -/
def chooseFurther (taken : Nat) (next : UInt8) (choices : List (Char × TokenKind))
    (otherwise : TokenKind) : TokenKind × Nat :=
  let chosen := choose next choices otherwise
  (chosen.1, taken + chosen.2)

def marks : List (Char × TokenKind) :=
  [('(', .lParen), (')', .rParen), ('{', .lBrace), ('}', .rBrace), ('[', .lBracket),
    (']', .rBracket), (',', .comma), (';', .semicolon), (':', .colon), ('#', .hash), ('~', .tilde)]

/-- The operators of one byte or two, with what may follow the first. -/
def operators : List (Char × List (Char × TokenKind) × TokenKind) :=
  [('^', [('=', .caretAssign)], .caret), ('@', [(':', .atColon)], .atSign),
    ('=', [('=', .eq), ('>', .fatArrow)], .assign), ('!', [('=', .notEq)], .bang),
    ('+', [('+', .plusPlus), ('=', .plusAssign)], .plus),
    ('-', [('-', .minusMinus), ('=', .minusAssign), ('>', .arrow)], .minus),
    ('*', [('=', .starAssign)], .star), ('/', [('=', .slashAssign)], .slash),
    ('%', [('=', .percentAssign)], .percent), ('&', [('&', .ampAmp), ('=', .ampAssign)], .amp),
    ('|', [('|', .pipePipe), ('=', .pipeAssign)], .pipe)]

def longOperator (ch next second third : UInt8) : Option (TokenKind × Nat) :=
  if ch = byte '.' then
    if next = byte '.' ∧ second = byte '.' then some (.dotDotDot, 2) else some (.dot, 0)
  else if ch = byte '?' then
    if next = byte '?' then
      some (chooseFurther 1 second [('=', .questionQuestionAssign)] .questionQuestion)
    else some (choose next [('.', .questionDot)] .question)
  else if ch = byte '<' then
    if next = byte '<' then some (chooseFurther 1 second [('=', .shlAssign)] .shl)
    else some (choose next [('=', .le)] .lt)
  else if ch = byte '>' then
    if next = byte '>' then
      if second = byte '>' then some (chooseFurther 2 third [('=', .ushrAssign)] .ushr)
      else some (chooseFurther 1 second [('=', .shrAssign)] .shr)
    else some (choose next [('=', .ge)] .gt)
  else none

/-- The kind of the operator or punctuation mark a byte starts, and how many more
bytes it has. -/
def operator (ch next second third : UInt8) : Option (TokenKind × Nat) :=
  match marks.find? fun mark => byte mark.1 == ch with
  | some mark => some (mark.2, 0)
  | none =>
      match operators.find? fun entry => byte entry.1 == ch with
      | some entry => some (choose next entry.2.1 entry.2.2)
      | none => longOperator ch next second third

/-! ### One token -/

def nextToken (start : Nat) : Lexing Token :=
  let ch := peekAt source start
  let pos := start + 1
  let next := peekAt source pos
  if ch = byte '~' ∧ next = byte '/' then do
    return Token.new .regexLit start (← lexRegex source (source.length + 1) start (pos + 1))
  else if ch = byte '.' ∧ isDigitByte next then
    return finishNumber source start true (skipWhile source isGroupedDigit pos)
  else
    match operator ch next (peekAt source (pos + 1)) (peekAt source (pos + 2)) with
    | some (kind, more) => return Token.new kind start (pos + more)
    | none =>
        if isQuoteByte ch then do
          return Token.new .stringLit start
            (← lexString source (source.length + 1) ch start pos)
        else if ch = byte '$' then
          return Token.new .dollarIdent start (skipWhile source isIdentByte pos)
        else if isDigitByte ch then lexNumber source start pos
        else if isAlphaByte ch ∨ ch = byte '_' then lexIdentifier source start pos
        else if 0x80 ≤ ch then
          lexIdentifier source start (skipWhile source Utf8.isContinuation pos)
        else
          lexError ("unexpected character: '" ++ String.singleton (Char.ofNat ch.toNat) ++ "'") start

/-! ### Inline markup -/

namespace Markup

/-- Behind the first occurrence of `mark`. -/
def terminator (start : Nat) (mark : String) : Lexing (Option Nat) := do
  let rest ← sliceOf source start source.length
  return (splitFirst (Utf8.encode mark.toList) rest).map fun found =>
    start + found.1.length + (Utf8.encode mark.toList).length

def quotedFrom : Nat → UInt8 → Nat → Lexing (Option Nat)
  | 0, _, _ => .error .outOfFuel
  | fuel + 1, close, pos =>
      if pos < source.length then do
        let b ← byteAt source pos
        if b = close then return some (pos + 1)
        else quotedFrom fuel close (pos + if b = backslashByte then 2 else 1)
      else return none

def quoted (start : Nat) : Lexing (Option Nat) := do
  quotedFrom source (source.length + 1) (← byteAt source start) (start + 1)

def bracesFrom : Nat → Nat → Nat → Lexing (Option Nat)
  | 0, _, _ => .error .outOfFuel
  | fuel + 1, depth, pos =>
      if pos < source.length then do
        if ← startsAt source "//" pos then
          match ← terminator source (pos + 2) "\n" with
          | some pos => bracesFrom fuel depth pos
          | none => return none
        else if ← startsAt source "/*" pos then
          match ← terminator source (pos + 2) "*/" with
          | some pos => bracesFrom fuel depth pos
          | none => return none
        else
          let b ← byteAt source pos
          if isQuoteByte b then
            match ← quoted source pos with
            | some pos => bracesFrom fuel depth pos
            | none => return none
          else if b = byte '{' then bracesFrom fuel (depth + 1) (pos + 1)
          else if b = byte '}' then
            if depth - 1 = 0 then return some (pos + 1) else bracesFrom fuel (depth - 1) (pos + 1)
          else bracesFrom fuel depth (pos + 1)
      else return none

def braces (start : Nat) : Lexing (Option Nat) := bracesFrom source (source.length + 1) 1 (start + 1)

def required (start : Nat) (message : String) : Option Nat → Lexing Nat
  | some pos => .ok pos
  | none => lexError message start

/-- Up to the `>` of a tag, or the end of the source. -/
def attributes : Nat → Nat → Nat → Lexing Nat
  | 0, _, _ => .error .outOfFuel
  | fuel + 1, start, pos =>
      if pos < source.length then do
        let b ← byteAt source pos
        if b = byte '>' then return pos
        else if isQuoteByte b then
          attributes fuel start
            (← required start "unterminated markup attribute" (← quoted source pos))
        else if b = byte '{' then
          attributes fuel start
            (← required start "unterminated markup expression" (← braces source pos))
        else attributes fuel start (pos + 1)
      else return pos

def isNameByte (b : UInt8) : Bool :=
  isIdentByte b || b == byte '-' || b == byte ':' || b == byte '.'

/-- A tag at `pos`: its name, whether it closes or is empty, and what follows it. -/
def scanTag (start pos : Nat) : Lexing (List UInt8 × Bool × Bool × Nat) := do
  let closing := holdsAt source (· == byte '/') (pos + 1)
  let name := if closing then pos + 2 else pos + 1
  let nameEnd := skipWhile source isNameByte name
  if nameEnd = name then lexError "expected markup tag name" start
  else do
    let tag ← sliceOf source name nameEnd
    let pos ← attributes source (source.length + 1) start nameEnd
    if pos = source.length then lexError "unterminated markup tag" start
    else return (tag, closing, holdsAt source (· == byte '/') (pos - 1), pos + 1)

def scanFrom : Nat → Nat → Option (List UInt8) → Int → Nat → Lexing Nat
  | 0, _, _, _, _ => .error .outOfFuel
  | fuel + 1, start, root, depth, pos =>
      if pos < source.length then do
        if ← startsAt source "<!--" pos then
          scanFrom fuel start root depth
            (← required start "unterminated markup comment" (← terminator source (pos + 4) "-->"))
        else if ← startsAt source "<![CDATA[" pos then
          scanFrom fuel start root depth
            (← required start "unterminated markup CDATA" (← terminator source (pos + 9) "]]>"))
        else
          let b ← byteAt source pos
          if b = byte '{' then
            scanFrom fuel start root depth
              (← required start "unterminated markup expression" (← braces source pos))
          else if b = byte '<' then do
            let (tag, closing, empty, pos) ← scanTag source start pos
            let rootTag := root.getD tag
            if tag = rootTag then
              let depth := if closing then depth - 1 else if empty then depth else depth + 1
              if depth = 0 then return pos else scanFrom fuel start (some rootTag) depth pos
            else scanFrom fuel start (some rootTag) depth pos
          else scanFrom fuel start root depth (pos + 1)
      else lexError "unterminated markup" start

def scan (start : Nat) : Lexing Nat := scanFrom source (source.length + 1) start none 0 start

end Markup

/-! ### The loop over the source -/

structure LexState where
  pos : Nat
  tokens : List Token
  parenHeaders : List Bool
  afterControlHeader : Bool

def startsOperand : TokenKind → Bool
  | .assign | .kwReturn | .lParen | .lBracket | .lBrace | .comma | .colon | .question | .arrow
  | .kwElse | .kwThrow | .kwMacro => true
  | _ => false

def startsControlHeader : TokenKind → Bool
  | .kwIf | .kwFor | .kwWhile | .kwCatch => true
  | _ => false

def tokenAt (state : LexState) (pos : Nat) : Lexing Token :=
  let operand := state.afterControlHeader ||
    (state.tokens.getLast?).all fun token => startsOperand token.kind
  if operand ∧ peekAt source pos = byte '<' ∧ isAlphaByte (peekAt source (pos + 1)) then do
    return Token.new .markupLit pos (← Markup.scan source pos)
  else nextToken source pos

def takeToken (state : LexState) (token : Token) : LexState where
  pos := token.span.stop
  tokens := state.tokens ++ [token]
  parenHeaders :=
    if token.kind = .lParen then
      ((state.tokens.getLast?).any fun previous => startsControlHeader previous.kind) ::
        state.parenHeaders
    else if token.kind = .rParen then state.parenHeaders.tail
    else state.parenHeaders
  afterControlHeader := token.kind = .rParen ∧ state.parenHeaders.headD false

/-- One round: the position behind white space and comments, and the state behind
the token there, none at the end. -/
def lexRound (state : LexState) : Lexing (Nat × Option LexState) := do
  let pos ← skipWhitespaceAndComments source (source.length + 1) state.pos
  if source.length ≤ pos then return (pos, none)
  else return (pos, some (takeToken state (← tokenAt source state pos)))

def tokenizeFrom : Nat → LexState → Lexing (List Token)
  | 0, _ => .error .outOfFuel
  | fuel + 1, state => do
      match ← lexRound source state with
      | (pos, none) => return state.tokens ++ [Token.new .eof pos pos]
      | (_, some state) => tokenizeFrom fuel state

/-- A byte order mark is skipped, so that spans stay offsets into the source. -/
def startState (text : List Char) : LexState where
  pos := if text.head? = some (Char.ofNat 0xFEFF) then 3 else 0
  tokens := []
  parenHeaders := []
  afterControlHeader := false

def tokenize (text : List Char) : Lexing (List Token) :=
  tokenizeFrom (Utf8.encode text) ((Utf8.encode text).length + 1) (startState text)

end Rayzor.Parser
