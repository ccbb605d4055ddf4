import Rayzor.Library.Text
import Rayzor.Parser.Conditions

/-!
Contract: conditional compilation of a source text.

Owns: inline conditionals (`processInlineConditionals`), blocks and the lines
taken from them (`extractConditionalBlock`, `processConditionalBlock`), the loop
over the lines (`preprocess`), and that its fuel is enough.

Does not own: the value of a condition, which is a parameter of all but the last
definition. A position in a text is modelled by the text from there on.
-/

namespace Rayzor.Parser

open Library.Text

def startsWith (mark : String) (text : Text) : Bool := mark.toList.isPrefixOf text

/-- A line without the carriage return of its line break. -/
def stripReturn (line : Text) : Text :=
  if line.getLast? = some '\r' then line.dropLast else line

/-- `str::lines`: what follows the last line break is a line unless it is empty. -/
def lines (source : Text) : List Text :=
  (pieces '\n' source).dropLast.map stripReturn ++
    ((pieces '\n' source).getLast?.toList.filter fun last => !last.isEmpty)

def joinLines (lines : List Text) : Text := List.intercalate ['\n'] lines

def endsInBreak (text : Text) : Bool := text.getLast? == some '\n'

def joins (text : Text) : Bool :=
  "||".toList.isSuffixOf text || "&&".toList.isSuffixOf text || "!".toList.isSuffixOf text

def opens (text : Text) : Bool := startsWith "||" text || startsWith "&&" text || startsWith "!" text

/-- How much of the text behind `#if ` is condition, from the character at
`offset` on: white space ends it outside parentheses, and away from operators. -/
def conditionEndFrom (text : Text) : Int → Nat → Text → Nat
  | _, _, [] => 0
  | depth, offset, c :: rest =>
      if c = '(' then conditionEndFrom text (depth + 1) (offset + 1) rest
      else if c = ')' then conditionEndFrom text (depth - 1) (offset + 1) rest
      else if isWhitespace c ∧ depth ≤ 0 ∧ !joins (trimEnd (text.take offset)) ∧
          !opens (trimStart (c :: rest)) then offset
      else conditionEndFrom text depth (offset + 1) rest

/-- A condition that ends nowhere, or is empty, is the whole text. -/
def conditionEnd (text : Text) : Nat :=
  if conditionEndFrom text 0 0 text = 0 then text.length else conditionEndFrom text 0 0 text

/-- How much of the text behind `#elseif` is condition: a word and the white
space before it. -/
def elseifEnd (text : Text) : Nat :=
  match (trimStart text).findIdx? isWhitespace with
  | some offset => text.length - (trimStart text).length + offset
  | none => text.length

/-- The arms of a chain: a condition, none for `#else`, and the content. -/
def arms : Nat → Option Text → Text → List (Option Text × Text)
  | 0, condition, body => [(condition, body)]
  | fuel + 1, condition, body =>
      match splitFirst "#else".toList body with
      | none => [(condition, body)]
      | some (content, after) =>
          (condition, content) ::
            if startsWith "if" after then
              let clause := after.drop 2
              arms fuel (some (trim (clause.take (elseifEnd clause))))
                (clause.drop (elseifEnd clause))
            else arms fuel none after

def takenArm (evaluate : Text → Bool) (condition body : Text) : Option Text :=
  ((arms body.length (some condition) body).find? fun arm => arm.1.elim true evaluate).map Prod.snd

/-- The content of an arm without the white space and semicolons around it; one
semicolon at its end stays. -/
def armText (branch : Text) : Text :=
  let edge := fun c => c == ';' || isWhitespace c
  ((trim branch).dropWhile edge).rdropWhile edge ++
    if (trim branch).getLast? = some ';' then [';'] else []

def inlineFrom (evaluate : Text → Bool) : Nat → Text → Text
  | 0, _ => []
  | fuel + 1, text =>
      match splitFirst "#if ".toList text with
      | none => text
      | some (before, after) =>
          match splitFirst "#end".toList (after.drop (conditionEnd after)) with
          -- What stands before the `#if` was taken over already.
          | none => before ++ text
          | some (body, tail) =>
              before ++
                ((takenArm evaluate (trim (after.take (conditionEnd after))) body).map armText).getD []
                ++ inlineFrom evaluate fuel tail

def processInlineConditionals (evaluate : Text → Bool) (line : Text) : Text :=
  inlineFrom evaluate (line.length + 1) line

/-- How the nesting depth changes over a line of a block. -/
def depthAfter (depth : Int) (line : Text) : Int :=
  let trimmed := trimStart line
  if startsWith "#if " trimmed then
    depth + 1 + occurrences "#if ".toList (trimmed.drop 4) - occurrences "#end".toList line
  else if startsWith "#end" trimmed then depth - 1
  else depth + occurrences "#if ".toList line - occurrences "#end".toList line

/-- The lines up to where the depth falls to zero, and the lines after them. -/
def blockRest : Int → List Text → List Text × List Text
  | _, [] => ([], [])
  | depth, line :: rest =>
      if depthAfter depth line ≤ 0 then ([line], rest)
      else
        let block := blockRest (depthAfter depth line) rest
        (line :: block.1, block.2)

def extractConditionalBlock (first : Text) (rest : List Text) : List Text × List Text :=
  (first :: (blockRest 1 rest).1, (blockRest 1 rest).2)

/-- One entry for each line: the line where its branch is taken, else an empty
one. A nested block passes through whole. -/
def selectLines (evaluate : Text → Bool) : Bool → Bool → Nat → List Text → List Text
  | _, _, _, [] => []
  | conditionMet, active, depth, line :: rest =>
      let trimmed := trimStart line
      if startsWith "#if " trimmed then
        (if active then line else []) :: selectLines evaluate conditionMet active (depth + 1) rest
      else if 0 < depth then
        (if active then line else []) :: selectLines evaluate conditionMet active
          (if startsWith "#end" trimmed then depth - 1 else depth) rest
      else if startsWith "#elseif " trimmed then
        let met := !conditionMet && evaluate (conditionText (trim (trimmed.drop 8)))
        [] :: selectLines evaluate (conditionMet || met) met 0 rest
      else if startsWith "#else" trimmed then
        [] :: selectLines evaluate conditionMet (!conditionMet) 0 rest
      else (if active && !startsWith "#error" trimmed then line else []) ::
        selectLines evaluate conditionMet active 0 rest

/-- The entries between the `#if` and the last line of the block. -/
def processConditionalBlock (evaluate : Text → Bool) (block : List Text)
    (initialCondition : Text) : List Text :=
  selectLines evaluate (evaluate initialCondition) (evaluate initialCondition) 0
    block.tail.dropLast

/-- How many more conditionals a line opens than it closes. -/
def depthOf (line : Text) : Int :=
  (occurrences "#if ".toList line : Int) - occurrences "#end".toList line

/-- The lines taken while conditionals are open, the depth left, and the rest. -/
def joinOpen : Int → List Text → List Text × Int × List Text
  | depth, [] => ([], depth, [])
  | depth, next :: rest =>
      if depth ≤ 0 then ([], depth, next :: rest)
      else
        let joined := joinOpen (depth + depthOf next) rest
        (next :: joined.1, joined.2)

/-- What one round of the loop does with the lines it takes. -/
inductive Step where
  /-- Inline conditionals across lines. -/
  | across (taken : List Text)
  /-- Inline conditionals on one line. -/
  | inline (line : Text)
  | block (taken : List Text)
  /-- A directive without a block, or an `#error`. -/
  | dropped (line : Text)
  | regular (line : Text)

def nextStep (line : Text) (rest : List Text) : Step × List Text :=
  let trimmed := trimStart line
  let joined := joinOpen (depthOf line) rest
  if !startsWith "#if " trimmed ∧ contains "#if ".toList line ∧ 0 < depthOf line ∧
      joined.2.1 = 0 then (.across (line :: joined.1), joined.2.2)
  else if contains "#if ".toList line ∧ contains "#end".toList line then (.inline line, rest)
  else if startsWith "#if " trimmed then
    (.block (extractConditionalBlock line rest).1, (extractConditionalBlock line rest).2)
  else if startsWith "#else" trimmed ∨ startsWith "#elseif " trimmed ∨ startsWith "#end" trimmed ∨
      startsWith "#error" trimmed then (.dropped line, rest)
  else (.regular line, rest)

/-- The lines a block leaves for another round. -/
def selected (evaluate : Text → Bool) (block : List Text) : List Text :=
  processConditionalBlock evaluate block
    (conditionText (trim ((trimStart (block.headD [])).drop 4)))

/-- The text a step adds. `again` preprocesses the lines taken from a block. -/
def emit (evaluate : Text → Bool) (again : Text → Text) : Step → Text
  | .across taken =>
      let processed := processInlineConditionals evaluate (joinLines taken)
      processed ++ '\n' :: List.replicate (taken.length - max (lines processed).length 1) '\n'
  | .inline line => processInlineConditionals evaluate line ++ ['\n']
  | .block taken =>
      '\n' :: again (joinLines (selected evaluate taken)) ++
        (if (selected evaluate taken).isEmpty then [] else ['\n']) ++
        List.replicate (taken.length - (1 + (selected evaluate taken).length)) '\n'
  | .dropped _ => ['\n']
  | .regular line => line ++ ['\n']

/-- Without a line break at the end of the source, none at the end of the text. -/
def finish (source result : Text) : Text :=
  if !endsInBreak source ∧ endsInBreak result then result.dropLast else result

/-- Every round takes a line, and a block leaves fewer than it took, so one more
than the number of lines is fuel enough. -/
def preprocessLines (evaluate : Text → Bool) : Nat → List Text → Text
  | 0, _ => []
  | _ + 1, [] => []
  | fuel + 1, line :: rest =>
      emit evaluate (fun source => finish source (preprocessLines evaluate fuel (lines source)))
          (nextStep line rest).1 ++
        preprocessLines evaluate fuel (nextStep line rest).2

def preprocessWith (evaluate : Text → Bool) (source : Text) : Text :=
  finish source (preprocessLines evaluate ((lines source).length + 1) (lines source))

def preprocess (classes : CharClasses) (source : Text) (config : PreprocessorConfig) : Text :=
  preprocessWith (evaluateCondition classes config) source

end Rayzor.Parser
