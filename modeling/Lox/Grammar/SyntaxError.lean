import Lox.Diagnostic

/-! # Syntax errors

  A syntax error names the token at which reading went wrong and what was wrong there.
-/

namespace Lox.Grammar

/-- The two places where a parameter list and a body are declared. -/
inductive Routine where
  | function
  | method
  deriving DecidableEq, Repr

/-- The word for a routine in messages. -/
def Routine.word : Routine → String
  | function => "function"
  | method => "method"

/-- The most parameters a function may have, and the most arguments of a call. -/
def maxArity : Nat := 255

/-- What is wrong at a token. -/
inductive Cause where
  /-- No expression starts here. -/
  | expression
  /-- A parenthesis around an expression is not closed. -/
  | closingParen
  /-- What stands left of `=` cannot be assigned to. -/
  | assignmentTarget
  /-- A dot is not followed by a name. -/
  | propertyName
  /-- One argument more than a call may have. -/
  | tooManyArguments
  /-- An argument list is not closed. -/
  | argumentsParen
  /-- `super` is not followed by a dot. -/
  | superDot
  /-- `super.` is not followed by a name. -/
  | superMethod
  /-- A class has no name. -/
  | className
  /-- `<` is not followed by the name of a class. -/
  | superclassName
  /-- The body of a class is not opened. -/
  | classBody
  /-- The body of a class is not closed. -/
  | classEnd
  /-- A routine has no name. -/
  | routineName (routine : Routine)
  /-- A parameter list is not opened. -/
  | routineParen (routine : Routine)
  /-- A parameter is no name. -/
  | parameterName
  /-- One parameter more than a function may have. -/
  | tooManyParameters
  /-- A parameter list is not closed. -/
  | parametersParen
  /-- The body of a routine is not opened. -/
  | routineBody (routine : Routine)
  /-- A variable has no name. -/
  | variableName
  /-- A variable declaration has no end. -/
  | variableEnd
  /-- The clauses of a `for` loop are not opened. -/
  | forParen
  /-- The condition of a `for` loop has no end. -/
  | forCondition
  /-- The clauses of a `for` loop are not closed. -/
  | forClauses
  /-- The condition of an `if` is not opened. -/
  | ifParen
  /-- The condition of an `if` is not closed. -/
  | ifCondition
  /-- A `print` statement has no end. -/
  | printEnd
  /-- A `return` statement has no end. -/
  | returnEnd
  /-- The condition of a `while` loop is not opened. -/
  | whileParen
  /-- The condition of a `while` loop is not closed. -/
  | whileCondition
  /-- An expression statement has no end. -/
  | expressionEnd
  /-- A block is not closed. -/
  | blockEnd
  deriving DecidableEq, Repr

/-- What a syntax error says. -/
def Cause.message : Cause → String
  | expression => "Expect expression."
  | closingParen => "Expect ')' after expression."
  | assignmentTarget => "Invalid assignment target."
  | propertyName => "Expect property name after '.'."
  | tooManyArguments => "Can't have more than 255 arguments."
  | argumentsParen => "Expect ')' after arguments."
  | superDot => "Expect '.' after 'super'."
  | superMethod => "Expect superclass method name."
  | className => "Expect class name."
  | superclassName => "Expect superclass name."
  | classBody => "Expect '\x7b' before class body."
  | classEnd => "Expect '\x7d' after class body."
  | routineName routine => "Expect " ++ routine.word ++ " name."
  | routineParen routine => "Expect '(' after " ++ routine.word ++ " name."
  | parameterName => "Expect parameter name."
  | tooManyParameters => "Can't have more than 255 parameters."
  | parametersParen => "Expect ')' after parameters."
  | routineBody routine => "Expect '\x7b' before " ++ routine.word ++ " body."
  | variableName => "Expect variable name."
  | variableEnd => "Expect ';' after variable declaration."
  | forParen => "Expect '(' after 'for'."
  | forCondition => "Expect ';' after loop condition."
  | forClauses => "Expect ')' after for clauses."
  | ifParen => "Expect '(' after 'if'."
  | ifCondition => "Expect ')' after if condition."
  | printEnd => "Expect ';' after value."
  | returnEnd => "Expect ';' after return value."
  | whileParen => "Expect '(' after 'while'."
  | whileCondition => "Expect ')' after condition."
  | expressionEnd => "Expect ';' after expression."
  | blockEnd => "Expect '\x7d' after block."

/-- A syntax error. -/
structure SyntaxError where
  /-- The token at which it was noticed; none at the end of the input. -/
  token : Option Token
  /-- What is wrong there. -/
  cause : Cause
  deriving DecidableEq, Repr

/-- A syntax error as a diagnostic, in an input that ends with the given token. -/
def SyntaxError.diagnostic (ending : Token) (e : SyntaxError) : Diagnostic :=
  .atToken .syntactic (e.token.getD ending) e.cause.message

end Lox.Grammar
