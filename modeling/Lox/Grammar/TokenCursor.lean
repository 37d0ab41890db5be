import Lox.Grammar.Statement

/-! # All tokens of a list, one by one

  The tokens of a list are in memory as a whole, with an end token behind them that is added if
  the last one is none, and a cursor moves over them. It looks at the token at its place and at
  the one before it, and moves on unless there is an end token at its place, whatever may stand
  behind that. To look where there is no token breaks the reading off altogether; this is what
  no value stands for here.
-/

namespace Lox.Grammar

/-- A list of tokens that ends with an end token. -/
def completed (tokens : List Token) : List Token :=
  match tokens.getLast? with
  | some last => if last.isEof then tokens else tokens ++ [.ending last.line]
  | none => [.ending 1]

/-- A place among tokens. -/
structure TokenCursor where
  /-- The tokens. -/
  tokens : List Token
  /-- The place of the next one. -/
  current : Nat

namespace TokenCursor

/-- The cursor at a place of a list. -/
def placed (tokens : List Token) (place : Nat) : TokenCursor :=
  ⟨completed tokens, place⟩

/-- The token at the place. -/
def peek (c : TokenCursor) : Option Token :=
  c.tokens[c.current]?

/-- The token before the place. -/
def previous (c : TokenCursor) : Option Token :=
  c.tokens[c.current - 1]?

/-- Whether there is an end token at the place. -/
def atEnd (c : TokenCursor) : Option Bool := do
  return (← c.peek).isEof

/-- Takes the token at the place, but no end token. -/
def advance (c : TokenCursor) : Option (Token × TokenCursor) := do
  let c := if ← c.atEnd then c else { c with current := c.current + 1 }
  return (← c.previous, c)

/-- Whether the token at the place is of a kind. -/
def check (c : TokenCursor) (kind : TokenKind) : Option Bool := do
  if ← c.atEnd then return false else return (← c.peek).kind.agrees kind

/-- Takes the token at the place if it is of a kind, and says whether it did. -/
def accept (c : TokenCursor) (kind : TokenKind) : Option (Bool × TokenCursor) := do
  if ← c.check kind then return (true, (← c.advance).2) else return (false, c)

/-- Takes a token of a kind, or gives up at the token at the place. -/
def consume (c : TokenCursor) (kind : TokenKind) :
    Option (Except Token (Token × TokenCursor)) := do
  if ← c.check kind then return .ok (← c.advance) else return .error (← c.peek)

/-- Moves on to the end, to a place after a semicolon, or to a token that starts a
    statement. -/
def moveOn (c : TokenCursor) : Option TokenCursor :=
  match _here : c.peek, c.previous with
  | some token, some before =>
    if token.isEof || before.kind == .punctuator .semicolon || startsStatement token then some c
    else moveOn { c with current := c.current + 1 }
  | _, _ => none
termination_by c.tokens.length - c.current
decreasing_by
  obtain ⟨below, _⟩ := List.getElem?_eq_some_iff.mp _here
  exact Nat.sub_succ_lt_self _ _ below

/-- Goes on after an error: the token at the place is left behind in any case. -/
def synchronize (c : TokenCursor) : Option TokenCursor := do
  moveOn (← c.advance).2

end TokenCursor

end Lox.Grammar
