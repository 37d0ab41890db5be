import Lox.Grammar.SyntaxError
import Lox.Syntax.Expr

/-! # Reading tokens

  A parser reads tokens from the front of a list. It either yields a value or gives up with
  a syntax error at the first token it could not use; on the way it may record errors
  without giving up. Every choice is made by looking at one token (`select`).

  Repetitions are bounded by the number of tokens left when they start. Each round takes at
  least one token, and with no token left a repetition ends anyway, so the bound is never
  felt.
-/

namespace Lox.Grammar

/-- What a parser has before it and behind it. -/
structure State where
  /-- The tokens still to be read; the end token is not among them. -/
  rest : List Token
  /-- The errors recorded so far, in order. -/
  recorded : List SyntaxError
  /-- The identity of the next node that refers to a name. -/
  fresh : NodeId

/-- A reader of tokens. -/
abbrev Parser := EStateM SyntaxError State

/-- The number of tokens left. -/
def remaining : Parser Nat := fun s =>
  .ok s.rest.length s

/-- Whether no token is left. -/
def atEnd : Parser Bool := fun s =>
  .ok s.rest.isEmpty s

/-- Gives up at the next token. -/
def reject {α : Type} (cause : Cause) : Parser α := fun s =>
  .error ⟨s.rest.head?, cause⟩ s

/-- Notes an error and goes on. -/
def record (error : SyntaxError) : Parser Unit := fun s =>
  .ok () { s with recorded := s.recorded ++ [error] }

/-- Notes an error at the next token and goes on. -/
def recordHere (cause : Cause) : Parser Unit := fun s =>
  .ok () { s with recorded := s.recorded ++ [⟨s.rest.head?, cause⟩] }

/-- An identity that no node has yet. -/
def freshNode : Parser NodeId := fun s =>
  .ok s.fresh { s with fresh := s.fresh + 1 }

/-- Takes the next token and goes on with the rule chosen for it; if there is none, takes
    nothing and goes on with `otherwise`. -/
def select {α : Type} (rule? : Token → Option (Parser α)) (otherwise : Parser α) :
    Parser α := fun s =>
  match s.rest with
  | [] => otherwise s
  | token :: rest =>
    match rule? token with
    | some rule => rule { s with rest := rest }
    | none => otherwise s

/-- Whether the next token is of this kind. -/
def nextIs (kind : TokenKind) : Parser Bool := fun s =>
  .ok (s.rest.head?.any (·.kind.agrees kind)) s

/-- Takes the next token if it is of this kind. -/
def accept? (kind : TokenKind) : Parser (Option Token) :=
  select (fun token => if token.kind.agrees kind then some (pure (some token)) else none)
    (pure none)

/-- Takes a token of this kind, or gives up. -/
def expect (kind : TokenKind) (cause : Cause) : Parser Token :=
  select (fun token => if token.kind.agrees kind then some (pure token) else none)
    (reject cause)

/-- The items that follow the first one of a list separated by commas. Each item is told how
    many stand before it. -/
def moreItems {α : Type} (item : Nat → Parser α) : Nat → Nat → Parser (List α)
  | 0, _ => pure []
  | bound + 1, count => do
    match ← accept? (.punctuator .comma) with
    | none => pure []
    | some _ =>
      let next ← item count
      let others ← moreItems item bound (count + 1)
      return next :: others

/-- One or more items separated by commas. -/
def commaSeparated {α : Type} (item : Nat → Parser α) : Parser (List α) := do
  let first ← item 0
  let others ← moreItems item (← remaining) 1
  return first :: others

/-- The items before a closing parenthesis: none, or some separated by commas. -/
def itemsBeforeParen {α : Type} (item : Nat → Parser α) : Parser (List α) := do
  if ← nextIs (.punctuator .rightParen) then
    return []
  else
    commaSeparated item

/-- What a token of this kind introduces, if it is there. -/
def introducedBy {α : Type} (kind : TokenKind) (rule : Parser α) : Parser (Option α) := do
  match ← accept? kind with
  | some _ => some <$> rule
  | none => return none

/-- Items up to a stopping point. -/
def itemsUntil {α : Type} (stop : Parser Bool) (item : Parser α) : Nat → Parser (List α)
  | 0 => pure []
  | bound + 1 => do
    if ← stop then
      return []
    else
      let next ← item
      let others ← itemsUntil stop item bound
      return next :: others

/-- Whether the next token closes a block or class body, or there is none. -/
def atBodyEnd : Parser Bool := do
  return (← atEnd) || (← nextIs (.punctuator .rightBrace))

end Lox.Grammar
