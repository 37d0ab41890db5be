import Lox.Bindings
import Lox.Syntax.Stmt

/-! # Layers of names

  A layer holds the names that one syntactic scope has declared so far: a block, a function
  with its parameters, the `this` around the methods of a class, or the `super` around that.
  The global scope has no layer. A list of layers starts with the innermost.
-/

namespace Lox.Binding

/-- How far a declaration has come. -/
inductive Status where
  /-- The name is known, its initializer is not yet through. -/
  | declared
  /-- The name may be read. -/
  | defined
  deriving DecidableEq, Repr

/-- The names of one syntactic scope. -/
abbrev Layer := Bindings Status

/-- The layers around a place in a program, innermost first. -/
abbrev Layers := List Layer

namespace Layers

/-- Gives a name a status in the innermost layer; outside every layer nothing is kept. -/
def mark (name : Token) (status : Status) : Layers → Layers
  | [] => []
  | layer :: outer => layer.set name.lexeme status :: outer

/-- Makes a name known in the innermost layer. -/
def declare (layers : Layers) (name : Token) : Layers :=
  mark name .declared layers

/-- Makes a name readable in the innermost layer. -/
def define (layers : Layers) (name : Token) : Layers :=
  mark name .defined layers

/-- Whether the innermost layer already has a name. -/
def redeclares (layers : Layers) (name : Token) : Bool :=
  layers.head?.any (·.contains name.lexeme)

/-- Whether the innermost layer is in the middle of declaring a name. -/
def initializes (layers : Layers) (name : Token) : Bool :=
  layers.head?.any (·.get? name.lexeme == some .declared)

/-- The number of layers between a place and the first one that has a name. -/
def hops? (layers : Layers) (name : Token) : Option Nat :=
  layers.findIdx? (·.contains name.lexeme)

/-- The layers after a statement. Its declarations, and those of a branch or loop body that
    is a declaration itself, belong to the innermost layer. -/
def after (layers : Layers) : Stmt → Layers
  | .varDecl name _ => layers.define name
  | .funDecl f => layers.define f.name
  | .classDecl name _ _ => layers.define name
  | .ifElse _ thenBranch none => after layers thenBranch
  | .ifElse _ thenBranch (some elseBranch) => after (after layers thenBranch) elseBranch
  | .whileLoop _ body => after layers body
  | _ => layers

/-- The layers inside a class, around its methods. -/
def ofClass (layers : Layers) (derived : Bool) : Layers :=
  let outer := if derived then .single "super" .defined :: layers else layers
  .single "this" .defined :: outer

end Layers

end Lox.Binding
