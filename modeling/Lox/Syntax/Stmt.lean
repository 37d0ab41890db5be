import Lox.Syntax.Expr

/-! # Statements

  Statements and function declarations. A `for` loop has no tree of its own: it is written
  with a block and a `while` loop.
-/

namespace Lox

mutual

/-- A statement. -/
inductive Stmt where
  /-- An expression that is evaluated for its effect. -/
  | expression (value : Expr)
  /-- Writes a value on the output; the keyword locates a failing output. -/
  | print (keyword : Token) (value : Expr)
  /-- Declares a variable, `nil` if there is no initializer. -/
  | varDecl (name : Token) (initializer : Option Expr)
  /-- Statements in a scope of their own. -/
  | block (body : List Stmt)
  /-- Runs one of two branches. -/
  | ifElse (condition : Expr) (thenBranch : Stmt) (elseBranch : Option Stmt)
  /-- Runs a body as long as a condition holds. -/
  | whileLoop (condition : Expr) (body : Stmt)
  /-- Declares a function. -/
  | funDecl (declaration : FunctionDecl)
  /-- Leaves the innermost function, with `nil` if there is no value. -/
  | ret (keyword : Token) (value : Option Expr)
  /-- Declares a class; the superclass, if any, is an expression that names it. -/
  | classDecl (name : Token) (superclass : Option Expr) (methods : List FunctionDecl)

/-- The declaration of a function or method. -/
structure FunctionDecl where
  /-- Its name. -/
  name : Token
  /-- The names of its parameters. -/
  params : List Token
  /-- The statements it runs. -/
  body : List Stmt

end

instance : Inhabited Stmt := ⟨.block []⟩

/-- The method that runs when an instance is made. -/
def initializerName : String := "init"

/-- Whether a declaration has the name of the initializer. -/
def FunctionDecl.isInitializer (f : FunctionDecl) : Bool :=
  f.name.lexeme == initializerName

end Lox
