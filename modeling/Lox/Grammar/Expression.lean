import Lox.Grammar.Parser

/-! # The grammar of expressions

  From loosest to tightest an expression is an assignment, a chain of `or`, `and`, equality,
  comparison, term or factor operators, a prefixed operator, a call or property access, or a
  primary expression. The six levels of binary operators differ only in their operators and
  in the node they build, so one rule reads them all (`Level.chain`).

  The rules are functions of the reader of nested expressions, and `expression` ties the
  knot. A nested expression is read only after a token has been taken, so the number of
  tokens bounds the nesting; and with no token left there is no expression to read.
-/

namespace Lox.Grammar

/-! ### Primary expressions -/

/-- `super` has been taken: a dot and the name of a method follow. -/
def superRule (keyword : Token) : Parser Expr := do
  let _ ← expect (.punctuator .dot) .superDot
  let method ← expect .identifier .superMethod
  return .superRef (← freshNode) keyword method

/-- An opening parenthesis has been taken: an expression and the closing one follow. -/
def groupingRule (expression : Parser Expr) : Parser Expr := do
  let inner ← expression
  let _ ← expect (.punctuator .rightParen) .closingParen
  return .grouping inner

/-- The rule for a primary expression that starts with the given token. -/
def primaryRule? (expression : Parser Expr) (token : Token) : Option (Parser Expr) :=
  match token.kind with
  | .keyword .falseWord => some (pure (.literal (.bool false)))
  | .keyword .trueWord => some (pure (.literal (.bool true)))
  | .keyword .nilWord => some (pure (.literal .nil))
  | .number value => some (pure (.literal (.number value)))
  | .string text => some (pure (.literal (.string text)))
  | .keyword .superWord => some (superRule token)
  | .keyword .thisWord => some (do return .thisRef (← freshNode) token)
  | .identifier => some (do return .var (← freshNode) token)
  | .punctuator .leftParen => some (groupingRule expression)
  | _ => none

/-- A literal, a name, `this`, a superclass method or an expression in parentheses. -/
def primary (expression : Parser Expr) : Parser Expr :=
  select (primaryRule? expression) (reject .expression)

/-! ### Calls and properties -/

/-- An argument that `count` others precede. Too many of them are noted, not refused. -/
def argument (expression : Parser Expr) (count : Nat) : Parser Expr := do
  if maxArity ≤ count then
    recordHere .tooManyArguments
  expression

/-- The opening parenthesis of a call has been taken: arguments and the closing one
    follow. -/
def callRule (expression : Parser Expr) (callee : Expr) : Parser Expr := do
  let arguments ← itemsBeforeParen (argument expression)
  let paren ← expect (.punctuator .rightParen) .argumentsParen
  return .call callee paren arguments

/-- The dot of a property access has been taken: its name follows. -/
def propertyRule (object : Expr) : Parser Expr := do
  let name ← expect .identifier .propertyName
  return .get object name

/-- The rule for what may follow a callee or an object. -/
def suffixRule? (expression : Parser Expr) (e : Expr) (token : Token) :
    Option (Parser Expr) :=
  match token.kind with
  | .punctuator .leftParen => some (callRule expression e)
  | .punctuator .dot => some (propertyRule e)
  | _ => none

/-- The calls and property accesses that follow an expression. -/
def suffixes (expression : Parser Expr) : Nat → Expr → Parser Expr
  | 0, e => pure e
  | bound + 1, e =>
    select
      (fun token => (suffixRule? expression e token).map fun rule => do
        suffixes expression bound (← rule))
      (pure e)

/-- A primary expression with its calls and property accesses. -/
def call (expression : Parser Expr) : Parser Expr := do
  let e ← primary expression
  suffixes expression (← remaining) e

/-! ### Operators -/

/-- Whether a kind is an operator that stands before its operand. -/
def isPrefixOperator (kind : TokenKind) : Bool :=
  kind == .punctuator .bang || kind == .punctuator .minus

/-- An expression with the operators before it. -/
def unary (expression : Parser Expr) : Nat → Parser Expr
  | 0 => call expression
  | bound + 1 =>
    select
      (fun token =>
        if isPrefixOperator token.kind then
          some (do return .unary token (← unary expression bound))
        else none)
      (call expression)

/-- A level of operators that group from the left. -/
structure Level where
  /-- The operators of the level. -/
  operators : List TokenKind
  /-- The node that an operator makes of its operands. -/
  node : Expr → Token → Expr → Expr

/-- The levels of binary operators, loosest first. -/
def levels : List Level :=
  [ { operators := [.keyword .orWord], node := .logical },
    { operators := [.keyword .andWord], node := .logical },
    { operators := [.punctuator .bangEqual, .punctuator .equalEqual], node := .binary },
    { operators := [.punctuator .greater, .punctuator .greaterEqual, .punctuator .less,
        .punctuator .lessEqual], node := .binary },
    { operators := [.punctuator .minus, .punctuator .plus], node := .binary },
    { operators := [.punctuator .star, .punctuator .slash], node := .binary } ]

/-- The operators of a level and their right operands that follow a left operand. -/
def Level.chain (level : Level) (operand : Parser Expr) : Nat → Expr → Parser Expr
  | 0, left => pure left
  | bound + 1, left =>
    select
      (fun token =>
        if token.kind ∈ level.operators then
          some (do
            let right ← operand
            level.chain operand bound (level.node left token right))
        else none)
      (pure left)

/-- Operands of the next tighter level, joined by the operators of this one. -/
def Level.parser (level : Level) (operand : Parser Expr) : Parser Expr := do
  let first ← operand
  level.chain operand (← remaining) first

/-- An expression built with the given levels of operators. -/
def operation (expression : Parser Expr) : List Level → Parser Expr
  | [] => do unary expression (← remaining)
  | level :: tighter => level.parser (operation expression tighter)

/-! ### Assignments -/

/-- The assignment of a value to a target. A target that cannot be assigned to is noted at
    the equals sign, and then stands for itself. -/
def assignTo (target : Expr) (equals : Token) (value : Expr) : Parser Expr :=
  match target with
  | .var _ name => do return .assign (← freshNode) name value
  | .get object name => return .set object name value
  | other => do
    record ⟨some equals, .assignmentTarget⟩
    return other

/-- An equals sign has been taken after `target`: a value follows. -/
def assignmentRule (expression : Parser Expr) (target : Expr) (equals : Token) :
    Parser Expr := do
  assignTo target equals (← expression)

/-- An assignment or an operation. -/
def assignment (expression : Parser Expr) : Parser Expr := do
  let target ← operation expression levels
  match ← accept? (.punctuator .equal) with
  | some equals => assignmentRule expression target equals
  | none => return target

/-- An expression whose nesting is at most `depth`. -/
def expression : Nat → Parser Expr
  | 0 => reject .expression
  | depth + 1 => assignment (expression depth)

end Lox.Grammar
