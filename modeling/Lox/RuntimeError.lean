import Lox.Token

/-! # Runtime errors

  A runtime error stops a run. It carries the token that its message refers to.
-/

namespace Lox

/-- What went wrong while a program ran. -/
inductive RuntimeCause where
  /-- No variable of this name is in reach. -/
  | undefinedVariable (name : String)
  /-- A number was needed. -/
  | operandNotNumber
  /-- Two numbers were needed. -/
  | operandsNotNumbers
  /-- Two numbers or two strings were needed. -/
  | operandsNotAddable
  /-- No operator that stands before its operand. -/
  | unaryOperator
  /-- No operator that stands between its operands. -/
  | binaryOperator
  /-- The value cannot be called. -/
  | notCallable
  /-- The number of arguments does not fit. -/
  | arity (expected actual : Nat)
  /-- A property was asked of something other than an instance. -/
  | noProperties
  /-- A field was set on something other than an instance. -/
  | noFields
  /-- The instance has neither field nor method of this name. -/
  | undefinedProperty (name : String)
  /-- The superclass is no class. -/
  | superclassNotClass
  /-- `super` with no class around it. -/
  | superOutside
  /-- `this` is no instance. -/
  | thisNotInstance
  /-- The output refused what was printed. -/
  | outputRefused (reason : String)
  /-- A function of the host failed. -/
  | hostFailure (message : String)
  deriving DecidableEq, Repr

/-- What a runtime error says. -/
def RuntimeCause.message : RuntimeCause → String
  | undefinedVariable name => "Undefined variable '" ++ name ++ "'."
  | operandNotNumber => "Operand must be a number."
  | operandsNotNumbers => "Operands must be numbers."
  | operandsNotAddable => "Operands must be two numbers or two strings."
  | unaryOperator => "Invalid unary operator."
  | binaryOperator => "Invalid binary operator."
  | notCallable => "Can only call functions and classes."
  | arity expected actual =>
    "Expected " ++ toString expected ++ " arguments but got " ++ toString actual ++ "."
  | noProperties => "Only instances have properties."
  | noFields => "Only instances have fields."
  | undefinedProperty name => "Undefined property '" ++ name ++ "'."
  | superclassNotClass => "Superclass must be a class."
  | superOutside => "Can't use 'super' outside of a class."
  | thisNotInstance => "Invalid 'this' binding."
  | outputRefused reason => "Unable to write output: " ++ reason
  | hostFailure message => message

/-- A runtime error. -/
structure RuntimeError where
  /-- The token it refers to. -/
  token : Token
  /-- What went wrong. -/
  cause : RuntimeCause
  deriving DecidableEq, Repr

namespace RuntimeError

/-- A name that is not in reach. -/
def undefined (name : Token) : RuntimeError :=
  ⟨name, .undefinedVariable name.lexeme⟩

/-- What the error says. -/
def message (e : RuntimeError) : String :=
  e.cause.message

/-- The error as text: what it says, then the line. -/
def text (e : RuntimeError) : String :=
  e.message ++ "\n[line " ++ toString e.token.line ++ "]"

end RuntimeError

end Lox
