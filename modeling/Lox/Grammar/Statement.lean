import Lox.Grammar.Expression
import Lox.Syntax.Stmt

/-! # The grammar of statements and declarations

  A program is a sequence of declarations. A syntax error inside a declaration is recorded,
  the declaration yields no node, and reading resumes after the next semicolon or before the
  next token that starts a statement (`resume`).

  As with expressions, the rules are functions of the readers of nested statements and
  declarations, and `statement` and `declaration` tie the knot.
-/

namespace Lox.Grammar

/-- Whether a token may start a statement other than an expression. -/
def startsStatement (token : Token) : Bool :=
  match token.kind with
  | .keyword k =>
    k ∈ [.classWord, .funWord, .varWord, .forWord, .ifWord, .whileWord, .printWord,
      .returnWord]
  | _ => false

/-- The tokens from which reading resumes after an error at the first of the given ones:
    that token is dropped, and then all up to and with the next semicolon or up to the next
    token that starts a statement, whichever comes first. -/
def resume : List Token → List Token
  | [] => []
  | [_] => []
  | token :: next :: rest =>
    if token.kind == .punctuator .semicolon || startsStatement next then next :: rest
    else resume (next :: rest)

/-- Turns giving up into a recorded error and resumes after it. -/
def recovering {α : Type} (rule : Parser α) : Parser (Option α) := fun s =>
  match rule s with
  | .ok a s' => .ok (some a) s'
  | .error e s' =>
    .ok none { s' with rest := resume s'.rest, recorded := s'.recorded ++ [e] }

/-! ### Simple statements -/

/-- An expression, read with as much nesting as the tokens left allow. -/
def nestedExpression : Parser Expr := do
  expression (← remaining)

/-- An expression and a semicolon. -/
def expressionStatement : Parser Stmt := do
  let value ← nestedExpression
  let _ ← expect (.punctuator .semicolon) .expressionEnd
  return .expression value

/-- `print` has been taken. -/
def printRule (keyword : Token) : Parser Stmt := do
  let value ← nestedExpression
  let _ ← expect (.punctuator .semicolon) .printEnd
  return .print keyword value

/-- An expression, unless a token of the given kind follows. -/
def expressionUnless (kind : TokenKind) : Parser (Option Expr) := do
  if ← nextIs kind then
    return none
  else
    return some (← nestedExpression)

/-- `return` has been taken. -/
def returnRule (keyword : Token) : Parser Stmt := do
  let value ← expressionUnless (.punctuator .semicolon)
  let _ ← expect (.punctuator .semicolon) .returnEnd
  return .ret keyword value

/-- `var` has been taken. -/
def varRule : Parser Stmt := do
  let name ← expect .identifier .variableName
  let initializer ← introducedBy (.punctuator .equal) nestedExpression
  let _ ← expect (.punctuator .semicolon) .variableEnd
  return .varDecl name initializer

/-! ### Blocks, branches and loops -/

/-- The declarations of a block and the brace that closes it. -/
def blockBody (declaration : Parser (Option Stmt)) : Parser (List Stmt) := do
  let body ← itemsUntil atBodyEnd declaration (← remaining)
  let _ ← expect (.punctuator .rightBrace) .blockEnd
  return body.filterMap id

/-- `if` has been taken. An `else` belongs to the nearest `if`. -/
def ifRule (statement : Parser Stmt) : Parser Stmt := do
  let _ ← expect (.punctuator .leftParen) .ifParen
  let condition ← nestedExpression
  let _ ← expect (.punctuator .rightParen) .ifCondition
  let thenBranch ← statement
  let elseBranch ← introducedBy (.keyword .elseWord) statement
  return .ifElse condition thenBranch elseBranch

/-- `while` has been taken. -/
def whileRule (statement : Parser Stmt) : Parser Stmt := do
  let _ ← expect (.punctuator .leftParen) .whileParen
  let condition ← nestedExpression
  let _ ← expect (.punctuator .rightParen) .whileCondition
  let body ← statement
  return .whileLoop condition body

/-- A `for` loop in terms of blocks and a `while` loop: the increment runs after the body in
    a block with it, a missing condition is true, and an initializer runs first in a block
    around the loop. -/
def forLoop (initializer : Option Stmt) (condition increment : Option Expr) (body : Stmt) :
    Stmt :=
  let round :=
    match increment with
    | some e => .block [body, .expression e]
    | none => body
  let loop := .whileLoop (condition.getD (.literal (.bool true))) round
  match initializer with
  | some first => .block [first, loop]
  | none => loop

/-- The rule for the initializer of a `for` loop that starts with the given token. -/
def forInitializerRule? (token : Token) : Option (Parser (Option Stmt)) :=
  match token.kind with
  | .punctuator .semicolon => some (pure none)
  | .keyword .varWord => some (some <$> varRule)
  | _ => none

/-- `for` has been taken. -/
def forRule (statement : Parser Stmt) : Parser Stmt := do
  let _ ← expect (.punctuator .leftParen) .forParen
  let initializer ← select forInitializerRule? (some <$> expressionStatement)
  let condition ← expressionUnless (.punctuator .semicolon)
  let _ ← expect (.punctuator .semicolon) .forCondition
  let increment ← expressionUnless (.punctuator .rightParen)
  let _ ← expect (.punctuator .rightParen) .forClauses
  let body ← statement
  return forLoop initializer condition increment body

/-- The rule for a statement that starts with the given token, expressions apart. -/
def statementRule? (statement : Parser Stmt) (declaration : Parser (Option Stmt))
    (token : Token) : Option (Parser Stmt) :=
  match token.kind with
  | .keyword .forWord => some (forRule statement)
  | .keyword .ifWord => some (ifRule statement)
  | .keyword .printWord => some (printRule token)
  | .keyword .returnWord => some (returnRule token)
  | .keyword .whileWord => some (whileRule statement)
  | .punctuator .leftBrace => some (.block <$> blockBody declaration)
  | _ => none

/-- A statement, given the readers of what is nested in it. -/
def anyStatement (statement : Parser Stmt) (declaration : Parser (Option Stmt)) :
    Parser Stmt :=
  select (statementRule? statement declaration) expressionStatement

/-! ### Functions and classes -/

/-- A parameter that `count` others precede. Too many of them are noted, not refused. -/
def parameter (count : Nat) : Parser Token := do
  if maxArity ≤ count then
    recordHere .tooManyParameters
  expect .identifier .parameterName

/-- A function or method from its name on. -/
def routine (kind : Routine) (declaration : Parser (Option Stmt)) : Parser FunctionDecl := do
  let name ← expect .identifier (.routineName kind)
  let _ ← expect (.punctuator .leftParen) (.routineParen kind)
  let params ← itemsBeforeParen parameter
  let _ ← expect (.punctuator .rightParen) .parametersParen
  let _ ← expect (.punctuator .leftBrace) (.routineBody kind)
  let body ← blockBody declaration
  return { name, params, body }

/-- The name of a superclass. -/
def superclassName : Parser Expr := do
  let name ← expect .identifier .superclassName
  return .var (← freshNode) name

/-- `class` has been taken. -/
def classRule (declaration : Parser (Option Stmt)) : Parser Stmt := do
  let name ← expect .identifier .className
  let parent ← introducedBy (.punctuator .less) superclassName
  let _ ← expect (.punctuator .leftBrace) .classBody
  let methods ← itemsUntil atBodyEnd (routine .method declaration) (← remaining)
  let _ ← expect (.punctuator .rightBrace) .classEnd
  return .classDecl name parent methods

/-- The rule for a declaration that starts with the given token, statements apart. -/
def declarationRule? (declaration : Parser (Option Stmt)) (token : Token) :
    Option (Parser Stmt) :=
  match token.kind with
  | .keyword .classWord => some (classRule declaration)
  | .keyword .funWord => some (.funDecl <$> routine .function declaration)
  | .keyword .varWord => some varRule
  | _ => none

/-- A declaration, given the readers of what is nested in it. -/
def anyDeclaration (statement : Parser Stmt) (declaration : Parser (Option Stmt)) :
    Parser (Option Stmt) :=
  recovering
    (select (declarationRule? declaration) (anyStatement statement declaration))

/-! ### Tying the knot -/

mutual

/-- A statement whose nesting is at most `depth`. -/
def statement : Nat → Parser Stmt
  | 0 => reject .expression
  | depth + 1 => anyStatement (statement depth) (declaration depth)

/-- A declaration whose nesting is at most `depth`; none if it could not be read. -/
def declaration : Nat → Parser (Option Stmt)
  | 0 => recovering (reject .expression)
  | depth + 1 => anyDeclaration (statement depth) (declaration depth)

end

end Lox.Grammar
