import Lox.Grammar.Statement

/-! # Programs and expressions from tokens

  Reading stops at the first end token; a list without one is taken to end on the line of
  its last token. Identities of nodes are drawn from a counter that the caller keeps, so
  that the trees of several readings never share one.
-/

namespace Lox.Grammar

/-- What was read from a list of tokens. -/
structure Reading (α : Type) where
  /-- The tree. -/
  value : α
  /-- The syntax errors, in the order in which they were noticed. -/
  errors : List SyntaxError
  /-- The token that ends the input. -/
  ending : Token
  /-- The first identity that no node has. -/
  fresh : NodeId

/-- The errors of a reading as diagnostics. -/
def Reading.diagnostics {α : Type} (r : Reading α) : List Diagnostic :=
  r.errors.map (·.diagnostic r.ending)

/-- The tokens before the first end token. -/
def bodyOf (tokens : List Token) : List Token :=
  tokens.takeWhile (!·.isEof)

/-- The first end token, or one on the line of the last token. -/
def endingOf (tokens : List Token) : Token :=
  match tokens.find? (·.isEof) with
  | some ending => ending
  | none => .ending (tokens.getLast?.elim 1 (·.line))

/-- The state in which the reading of a list of tokens starts. -/
def start (fresh : NodeId) (tokens : List Token) : State :=
  { rest := bodyOf tokens, recorded := [], fresh }

/-- All declarations up to the end. -/
def program : Parser (List Stmt) := do
  let bound ← remaining
  let statements ← itemsUntil atEnd (declaration bound) bound
  return statements.filterMap id

/-- Reads a program: the declarations that could be read, and all errors. -/
def readProgram (fresh : NodeId) (tokens : List Token) : Reading (List Stmt) :=
  match program (start fresh tokens) with
  | .ok statements s => ⟨statements, s.recorded, endingOf tokens, s.fresh⟩
  | .error e s => ⟨[], s.recorded ++ [e], endingOf tokens, s.fresh⟩

/-- Reads one expression and leaves the tokens after it alone. There is no tree if there is
    any error. -/
def readExpression (fresh : NodeId) (tokens : List Token) : Reading (Option Expr) :=
  match nestedExpression (start fresh tokens) with
  | .ok e s =>
    ⟨if s.recorded.isEmpty then some e else none, s.recorded, endingOf tokens, s.fresh⟩
  | .error e s => ⟨none, s.recorded ++ [e], endingOf tokens, s.fresh⟩

end Lox.Grammar
