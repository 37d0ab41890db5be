import Lox.Diagnostic

/-! # Binding errors

  Misuse of names and keywords that the shape of a program alone shows.
-/

namespace Lox.Binding

/-- What is wrong at a token. -/
inductive Cause where
  /-- A `return` outside every function. -/
  | returnOutside
  /-- A `return` with a value in an initializer. -/
  | returnFromInitializer
  /-- `this` outside every class. -/
  | thisOutside
  /-- `super` outside every class. -/
  | superOutside
  /-- `super` in a class that inherits from none. -/
  | superWithoutSuperclass
  /-- A second declaration of a name in one local scope. -/
  | redeclaration
  /-- A local variable that is read in its own initializer. -/
  | readInInitializer
  /-- A class that names itself as its superclass. -/
  | selfInheritance
  deriving DecidableEq, Repr

/-- What a binding error says. -/
def Cause.message : Cause → String
  | returnOutside => "Can't return from top-level code."
  | returnFromInitializer => "Can't return a value from an initializer."
  | thisOutside => "Can't use 'this' outside of a class."
  | superOutside => "Can't use 'super' outside of a class."
  | superWithoutSuperclass => "Can't use 'super' in a class with no superclass."
  | redeclaration => "Already a variable with this name in this scope."
  | readInInitializer => "Can't read local variable in its own initializer."
  | selfInheritance => "A class can't inherit from itself."

/-- A binding error. -/
structure BindingError where
  /-- The offending token. -/
  token : Token
  /-- What is wrong with it. -/
  cause : Cause
  deriving DecidableEq, Repr

/-- A binding error as a diagnostic. -/
def BindingError.diagnostic (e : BindingError) : Diagnostic :=
  .atToken .binding e.token e.cause.message

end Lox.Binding
