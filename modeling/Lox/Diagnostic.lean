import Lox.Token

/-! # Diagnostics

  A diagnostic says on which line, at which token and why a source text was refused before
  it ran.
-/

namespace Lox

/-- The check that refused a source text. -/
inductive Phase where
  /-- Cutting the text into tokens. -/
  | lexical
  /-- Reading the tokens as a program. -/
  | syntactic
  /-- Relating names to their declarations. -/
  | binding
  deriving DecidableEq, Repr

/-- The token that a diagnostic points at. -/
inductive Place where
  /-- No token: only the line is known. -/
  | unmarked
  /-- The end of the input. -/
  | atEnd
  /-- A token with this lexeme. -/
  | atLexeme (lexeme : String)
  deriving DecidableEq, Repr

namespace Place

/-- The place of a token. -/
def ofToken (t : Token) : Place :=
  if t.isEof then .atEnd else .atLexeme t.lexeme

/-- The place as it is written after the word `Error`. -/
def text : Place → String
  | unmarked => ""
  | atEnd => " at end"
  | atLexeme lexeme => " at '" ++ lexeme ++ "'"

end Place

/-- A complaint as one line of text. -/
def complaintText (line : Nat) (place : Place) (message : String) : String :=
  "[line " ++ toString line ++ "] Error" ++ place.text ++ ": " ++ message

/-- A complaint about a source text. -/
structure Diagnostic where
  /-- The check that failed. -/
  phase : Phase
  /-- The line of the offending text. -/
  line : Nat
  /-- The offending token. -/
  place : Place
  /-- What is wrong. -/
  message : String
  deriving DecidableEq, Repr

namespace Diagnostic

/-- A complaint about a token. -/
def atToken (phase : Phase) (token : Token) (message : String) : Diagnostic :=
  ⟨phase, token.line, .ofToken token, message⟩

/-- The diagnostic as one line of text. -/
def text (d : Diagnostic) : String :=
  complaintText d.line d.place d.message

end Diagnostic

end Lox
