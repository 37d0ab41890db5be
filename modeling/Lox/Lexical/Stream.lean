import Lox.Diagnostic
import Lox.Lexical.Span

/-! # The token stream of a text

  Each lexeme becomes a token and each stretch outside every lexeme a lexical error; blanks
  and comments leave no trace. The stream keeps the order of the text and closes with one
  end token. A token or error carries the line on which its span ends, which is one plus the
  number of newlines up to there.
-/

namespace Lox.Lexical

/-! ### Lexical errors -/

/-- Why a stretch of text is no lexeme. -/
inductive Cause where
  /-- No lexeme starts with this character. -/
  | unexpectedCharacter (c : Char)
  /-- A string has no closing quote. -/
  | unterminatedString
  deriving DecidableEq, Repr

/-- What a lexical error says. -/
def Cause.message : Cause → String
  | unexpectedCharacter c => "Unexpected character: " ++ c.toString
  | unterminatedString => "Unterminated string."

/-- A lexical error and the line on which it was noticed. -/
structure LexicalError where
  /-- Why the text is no lexeme. -/
  cause : Cause
  /-- The line on which the offending span ends. -/
  line : Nat
  deriving DecidableEq, Repr

/-- A lexical error as a diagnostic. It points at no token. -/
def LexicalError.diagnostic (e : LexicalError) : Diagnostic :=
  ⟨.lexical, e.line, .unmarked, e.cause.message⟩

/-! ### The stream -/

/-- An element of the stream. -/
inductive Item where
  /-- A token. -/
  | token (t : Token)
  /-- A stretch of text that is no token. -/
  | fault (e : LexicalError)
  deriving DecidableEq, Repr

/-- The line of a token or error. -/
def Item.line : Item → Nat
  | token t => t.line
  | fault e => e.line

/-- What a span that ends on the given line contributes to the stream. -/
def Span.item? (line : Nat) : Span → Option Item
  | blank _ => none
  | comment _ => none
  | lexeme kind text => some (.token ⟨kind, String.ofList text, line⟩)
  | stray c => some (.fault ⟨.unexpectedCharacter c, line⟩)
  | openString _ => some (.fault ⟨.unterminatedString, line⟩)

/-- The number of newlines in a span. -/
def Span.newlines (s : Span) : Nat :=
  s.text.count '\n'

/-- The stream of spans that start on the given line. -/
def itemsFrom (line : Nat) : List Span → List Item
  | [] => [.token (.ending line)]
  | span :: rest =>
    let line := line + span.newlines
    match span.item? line with
    | some item => item :: itemsFrom line rest
    | none => itemsFrom line rest

/-- The stream of a text. -/
def items (source : String) : List Item :=
  itemsFrom 1 (spans source.toList)

/-- The tokens of a stream, in order. -/
def tokensOf : List Item → List Token :=
  List.filterMap fun
    | .token t => some t
    | .fault _ => none

/-- The errors of a stream, in order. -/
def errorsOf : List Item → List LexicalError :=
  List.filterMap fun
    | .token _ => none
    | .fault e => some e

/-- The tokens of a text, closed by the end token. -/
def tokens (source : String) : List Token :=
  tokensOf (items source)

/-- The lexical errors of a text. -/
def errors (source : String) : List LexicalError :=
  errorsOf (items source)

end Lox.Lexical
