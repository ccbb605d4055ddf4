import Rayzor.Library.Utf8

/-!
Contract: the tokens of a source.

Owns: their kinds (`TokenKind`), the spelling of the keywords
(`keywordFromStr`), and a token with its span.
-/

namespace Rayzor.Parser

open Library

inductive TokenKind where
  | intLit | floatLit | stringLit | regexLit | markupLit | ident | dollarIdent
  | kwAbstract | kwBreak | kwCase | kwCast | kwCatch | kwClass | kwContinue | kwDefault | kwDo
  | kwDynamic | kwElse | kwEnum | kwExtends | kwExtern | kwFalse | kwFinal | kwFinally | kwFor
  | kwFunction | kwIf | kwImplements | kwImport | kwIn | kwInline | kwInterface | kwIs
  | kwMacro | kwNew | kwNull | kwOverride | kwPackage | kwPrivate | kwPublic | kwReturn
  | kwStatic | kwSuper | kwSwitch | kwThis | kwThrow | kwTrue | kwTry | kwTypedef | kwUntyped
  | kwUsing | kwVar | kwWhile
  | lParen | rParen | lBrace | rBrace | lBracket | rBracket | dot | dotDotDot | comma
  | semicolon | colon | atSign | atColon | arrow | fatArrow | question | questionDot
  | questionQuestion | questionQuestionAssign | hash
  | assign | eq | notEq | lt | le | gt | ge | plus | minus | star | slash | percent
  | plusAssign | minusAssign | starAssign | slashAssign | percentAssign | amp | pipe | caret
  | tilde | ampAmp | pipePipe | ampAssign | pipeAssign | caretAssign | shl | shr | ushr
  | shlAssign | shrAssign | ushrAssign | bang | plusPlus | minusMinus
  | eof
  deriving DecidableEq

def keywords : List (String × TokenKind) :=
  [("abstract", .kwAbstract), ("break", .kwBreak), ("case", .kwCase), ("cast", .kwCast),
    ("catch", .kwCatch), ("class", .kwClass), ("continue", .kwContinue),
    ("default", .kwDefault), ("do", .kwDo), ("dynamic", .kwDynamic), ("else", .kwElse),
    ("enum", .kwEnum), ("extends", .kwExtends), ("extern", .kwExtern), ("false", .kwFalse),
    ("final", .kwFinal), ("finally", .kwFinally), ("for", .kwFor), ("function", .kwFunction),
    ("if", .kwIf), ("implements", .kwImplements), ("import", .kwImport), ("in", .kwIn),
    ("inline", .kwInline), ("interface", .kwInterface), ("is", .kwIs), ("macro", .kwMacro),
    ("new", .kwNew), ("null", .kwNull), ("override", .kwOverride), ("package", .kwPackage),
    ("private", .kwPrivate), ("public", .kwPublic), ("return", .kwReturn),
    ("static", .kwStatic), ("super", .kwSuper), ("switch", .kwSwitch), ("this", .kwThis),
    ("throw", .kwThrow), ("true", .kwTrue), ("try", .kwTry), ("typedef", .kwTypedef),
    ("untyped", .kwUntyped), ("using", .kwUsing), ("var", .kwVar), ("while", .kwWhile)]

/-- A keyword by its bytes; bytes that are no text spell none. -/
def keywordFromStr (text : List UInt8) : Option TokenKind :=
  (keywords.find? fun keyword => Utf8.encode keyword.1.toList = text).map Prod.snd

/-- Byte offsets into the source. -/
structure Span where
  start : Nat
  stop : Nat
  deriving DecidableEq

def Span.merge (first second : Span) : Span :=
  ⟨min first.start second.start, max first.stop second.stop⟩

structure Token where
  kind : TokenKind
  span : Span
  deriving DecidableEq

namespace Token

def new (kind : TokenKind) (start stop : Nat) : Token := ⟨kind, ⟨start, stop⟩⟩

@[simp] theorem new_kind (kind : TokenKind) (start stop : Nat) :
    (new kind start stop).kind = kind := rfl

@[simp] theorem new_start (kind : TokenKind) (start stop : Nat) :
    (new kind start stop).span.start = start := rfl

@[simp] theorem new_stop (kind : TokenKind) (start stop : Nat) :
    (new kind start stop).span.stop = stop := rfl

end Token

/-- No keyword spells the end of the source. -/
theorem keywordFromStr_ne_eof {text : List UInt8} {kind : TokenKind}
    (found : keywordFromStr text = some kind) : kind ≠ .eof := by
  obtain ⟨entry, isEntry, rfl⟩ := Option.map_eq_some_iff.mp found
  have member := List.mem_of_find?_eq_some isEntry
  have every : ∀ keyword ∈ keywords, keyword.2 ≠ .eof := by decide
  exact every entry member

end Rayzor.Parser
