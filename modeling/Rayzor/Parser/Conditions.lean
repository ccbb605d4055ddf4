import Rayzor.Library.Binary
import Rayzor.Library.OrdMap

/-!
Contract: the conditions of conditional compilation.

Owns: the text of a condition on a directive line (`conditionText`), its tokens
(`tokenizeCondition`), and their value under a set of defines
(`evaluateCondition`).

Does not own: where directives stand in a source, or which characters are
letters. The tables for letters and digits beyond ASCII are a parameter.
-/

namespace Rayzor.Parser

open Library (Datum OrdMap)

abbrev Text := List Char

def doubleQuote : Char := Char.ofNat 34

def singleQuote : Char := Char.ofNat 39

def backslash : Char := Char.ofNat 92

/-- `char::is_whitespace`: the Unicode property White_Space. -/
def isWhitespace (c : Char) : Bool :=
  (9 ≤ c.toNat && c.toNat ≤ 13) || c.toNat == 0x20 || c.toNat == 0x85 || c.toNat == 0xA0 ||
    c.toNat == 0x1680 || (0x2000 ≤ c.toNat && c.toNat ≤ 0x200A) || c.toNat == 0x2028 ||
    c.toNat == 0x2029 || c.toNat == 0x202F || c.toNat == 0x205F || c.toNat == 0x3000

def trimStart (text : Text) : Text := text.dropWhile isWhitespace

def trimEnd (text : Text) : Text := text.rdropWhile isWhitespace

def trim (text : Text) : Text := trimEnd (trimStart text)

/-- `char::is_alphabetic` and `char::is_alphanumeric`. -/
structure CharClasses where
  alphabetic : Char → Bool
  alphanumeric : Char → Bool

def asciiClasses : CharClasses := ⟨Char.isAlpha, Char.isAlphanum⟩

structure PreprocessorConfig where
  defines : List Text
  values : OrdMap Text Text

/-- The text in front of a comment. A quoted string, open with its quote, hides
what would start one. -/
def beforeComment : Option Char → Text → Text
  | _, [] => []
  | some quote, c :: rest =>
      if c = backslash then
        match rest with
        | [] => [c]
        | escaped :: more => c :: escaped :: beforeComment (some quote) more
      else c :: beforeComment (if c = quote then none else some quote) rest
  | none, c :: rest =>
      if c = doubleQuote ∨ c = singleQuote then c :: beforeComment (some c) rest
      else if c = '/' ∧ (rest.head? = some '/' ∨ rest.head? = some '*') then []
      else c :: beforeComment none rest

def conditionText (rest : Text) : Text := trimEnd (beforeComment none rest)

def digitsValue (digits : Text) : Nat :=
  digits.foldl (fun value c => value * 10 + (c.toNat - 48)) 0

/-- `± digits * 10 ^ exponent`, to the nearest double. -/
def nearestDouble (negative : Bool) (digits : Nat) (exponent : Int) : Datum :=
  Library.Binary.decode .binary64
    (if 0 ≤ exponent then
      Library.Binary.round .binary64 negative (digits * 10 ^ exponent.toNat) 0 false
    else Library.Binary.divDatum .binary64 (.finite negative digits 0)
      (.finite false (10 ^ (-exponent).toNat) 0))

/-- The exponent of a number, behind its `e`. -/
def parseExponent (text : Text) : Option Int :=
  let negative := text.head? == some '-'
  let digits := if negative || text.head? == some '+' then text.tail else text
  if digits.isEmpty || !digits.all Char.isDigit then none
  else some (if negative then -(digitsValue digits : Int) else digitsValue digits)

/-- A number without its sign: a word for no finite number, or digits with an
optional fraction and an optional exponent. -/
def parseMagnitude (negative : Bool) (text : Text) : Option Datum :=
  let word := text.map Char.toLower
  if word = "inf".toList ∨ word = "infinity".toList then some (.infinite negative)
  else if word = "nan".toList then some .nan
  else
    let whole := text.takeWhile Char.isDigit
    let rest := text.dropWhile Char.isDigit
    let fraction := if rest.head? = some '.' then rest.tail.takeWhile Char.isDigit else []
    let rest := if rest.head? = some '.' then rest.tail.dropWhile Char.isDigit else rest
    if whole.isEmpty && fraction.isEmpty then none
    else
      let digits := digitsValue (whole ++ fraction)
      if rest.isEmpty then some (nearestDouble negative digits (-(fraction.length : Int)))
      else if rest.head? = some 'e' ∨ rest.head? = some 'E' then
        (parseExponent rest.tail).map fun exponent =>
          nearestDouble negative digits (exponent - fraction.length)
      else none

/-- `str::parse::<f64>`. -/
def parseDouble (text : Text) : Option Datum :=
  if text.head? = some '-' then parseMagnitude true text.tail
  else if text.head? = some '+' then parseMagnitude false text.tail
  else parseMagnitude false text

inductive CondToken where
  | ident (name : Text)
  | or
  | and
  | not
  | lParen
  | rParen
  | text (value : Text)
  | number (value : Datum)
  | compare (operator : Char) (equal : Bool)
  | invalid
  deriving DecidableEq

def unescaped (c : Char) : Char :=
  if c = 'n' then '\n' else if c = 'r' then '\r' else if c = 't' then '\t' else c

/-- The string up to its closing quote, none when it is never closed, and what
follows. -/
def quotedText (close : Char) : Text → Option Text × Text
  | [] => (none, [])
  | c :: rest =>
      if c = close then (some [], rest)
      else if c = backslash then
        match rest with
        | [] => (none, [])
        | escaped :: more =>
            let found := quotedText close more
            (found.1.map (unescaped escaped :: ·), found.2)
      else
        let found := quotedText close rest
        (found.1.map (c :: ·), found.2)

def continuesNumber (c : Char) : Bool :=
  c.isDigit || c == '.' || c == 'e' || c == 'E' || c == '+' || c == '-'

/-- Define names hold dots: `target.threaded`. -/
def continuesIdent (classes : CharClasses) (c : Char) : Bool :=
  classes.alphanumeric c || c == '_' || c == '.'

/-- Every token takes at least one character, so the length of the condition is
fuel enough. -/
def tokenizeConditionFrom (classes : CharClasses) : Nat → Text → List CondToken
  | 0, _ => []
  | _ + 1, [] => []
  | fuel + 1, c :: rest =>
      if c = ' ' ∨ c = '\t' then tokenizeConditionFrom classes fuel rest
      else if c = '(' then .lParen :: tokenizeConditionFrom classes fuel rest
      else if c = ')' then .rParen :: tokenizeConditionFrom classes fuel rest
      else if c = '!' ∧ rest.head? ≠ some '=' then
        .not :: tokenizeConditionFrom classes fuel rest
      else if c = '=' ∨ c = '!' ∨ c = '<' ∨ c = '>' then
        let equal := rest.head? == some '='
        let token := if (c = '=' ∨ c = '!') ∧ ¬ equal then .invalid else .compare c equal
        token :: tokenizeConditionFrom classes fuel (if equal then rest.tail else rest)
      else if c = singleQuote ∨ c = doubleQuote then
        let quoted := quotedText c rest
        (quoted.1.map CondToken.text).getD .invalid :: tokenizeConditionFrom classes fuel quoted.2
      else if c.isDigit ∨ c = '-' then
        let number := c :: rest.takeWhile continuesNumber
        ((parseDouble number).map CondToken.number).getD .invalid ::
          tokenizeConditionFrom classes fuel (rest.dropWhile continuesNumber)
      else if c = '|' ∧ rest.head? = some '|' then
        .or :: tokenizeConditionFrom classes fuel rest.tail
      else if c = '&' ∧ rest.head? = some '&' then
        .and :: tokenizeConditionFrom classes fuel rest.tail
      else if classes.alphabetic c ∨ c = '_' then
        .ident (c :: rest.takeWhile (continuesIdent classes)) ::
          tokenizeConditionFrom classes fuel (rest.dropWhile (continuesIdent classes))
      else .invalid :: tokenizeConditionFrom classes fuel rest

def tokenizeCondition (classes : CharClasses) (condition : Text) : List CondToken :=
  tokenizeConditionFrom classes condition.length condition

inductive ConditionValue where
  | missing
  | flag (value : Text)
  | text (value : Text)
  | number (value : Datum)
  | bool (value : Bool)

/-- `str::cmp`: UTF-8 keeps the order of the code points. -/
def compareText : Text → Text → Ordering
  | [], [] => .eq
  | [], _ :: _ => .lt
  | _ :: _, [] => .gt
  | left :: lefts, right :: rights =>
      if left.toNat < right.toNat then .lt
      else if right.toNat < left.toNat then .gt
      else compareText lefts rights

namespace ConditionValue

def truthy : ConditionValue → Bool
  | .missing => false
  | .flag _ => true
  | .text value => !value.isEmpty
  | .number value => !value.eq (.finite false 0 0)
  | .bool value => value

def asText : ConditionValue → Option Text
  | .flag value => some value
  | .text value => some value
  | _ => none

def compare : ConditionValue → ConditionValue → Option Ordering
  | .missing, .missing => some .eq
  | .number left, .number right => left.compare right
  | .bool left, .bool right => some (Ord.compare left right)
  | .number left, right => do left.compare (← parseDouble (← right.asText))
  | left, .number right => do (← parseDouble (← left.asText)).compare right
  | left, right => do return compareText (← left.asText) (← right.asText)

end ConditionValue

def conditionValue (config : PreprocessorConfig) :
    List CondToken → Option (ConditionValue × List CondToken)
  | .ident name :: rest =>
      some (if name = "true".toList then .bool true
        else if name = "false".toList then .bool false
        else if config.defines.contains name then .flag ((config.values.get? name).getD ['1'])
        else .missing, rest)
  | .text text :: rest => some (.text text, rest)
  | .number value :: rest => some (.number value, rest)
  | _ => none

def comparison (operator : Char) (equal : Bool) (order : Option Ordering) : Bool :=
  if operator = '=' then order == some .eq
  else if operator = '!' then order != some .eq
  else if operator = '<' then order == some .lt || (equal && order == some .eq)
  else if operator = '>' then order == some .gt || (equal && order == some .eq)
  else false

mutual

/-- The parsers give a value and the tokens behind it. Their fuel bounds the
depth of the calls. -/
def parseOr (config : PreprocessorConfig) : Nat → List CondToken → Bool × List CondToken
  | 0, tokens => (false, tokens)
  | fuel + 1, tokens => parseOrRest config fuel (parseAnd config fuel tokens)

def parseOrRest (config : PreprocessorConfig) :
    Nat → Bool × List CondToken → Bool × List CondToken
  | fuel + 1, (acc, .or :: rest) =>
      let right := parseAnd config fuel rest
      parseOrRest config fuel (acc || right.1, right.2)
  | _, state => state

def parseAnd (config : PreprocessorConfig) : Nat → List CondToken → Bool × List CondToken
  | 0, tokens => (false, tokens)
  | fuel + 1, tokens => parseAndRest config fuel (parseUnary config fuel tokens)

def parseAndRest (config : PreprocessorConfig) :
    Nat → Bool × List CondToken → Bool × List CondToken
  | fuel + 1, (acc, .and :: rest) =>
      let right := parseUnary config fuel rest
      parseAndRest config fuel (acc && right.1, right.2)
  | _, state => state

def parseUnary (config : PreprocessorConfig) : Nat → List CondToken → Bool × List CondToken
  | 0, tokens => (false, tokens)
  | fuel + 1, .not :: rest =>
      let operand := parseUnary config fuel rest
      (!operand.1, operand.2)
  | fuel + 1, tokens => parsePrimary config fuel tokens

def parsePrimary (config : PreprocessorConfig) : Nat → List CondToken → Bool × List CondToken
  | 0, tokens => (false, tokens)
  | fuel + 1, .lParen :: rest =>
      match parseOr config fuel rest with
      | (inner, .rParen :: rest) => (inner, rest)
      | (_, rest) => (false, rest)
  | _ + 1, tokens =>
      match conditionValue config tokens with
      | none => (false, tokens)
      | some (left, .compare operator equal :: rest) =>
          match conditionValue config rest with
          | none => (false, rest)
          | some (right, rest) => (comparison operator equal (left.compare right), rest)
      | some (left, rest) => (left.truthy, rest)

end

/-- Tokens left over make the condition false. -/
def evaluateTokens (config : PreprocessorConfig) (tokens : List CondToken) : Bool :=
  let value := parseOr config (8 * tokens.length + 8) tokens
  value.1 && value.2.isEmpty

def evaluateCondition (classes : CharClasses) (config : PreprocessorConfig)
    (condition : Text) : Bool :=
  evaluateTokens config (tokenizeCondition classes condition)

end Rayzor.Parser
