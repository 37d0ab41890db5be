import Lox.Bindings
import Lox.Number.Notation
import Lox.Syntax.Stmt

/-! # Values

  What an expression evaluates to. Functions, classes and instances have an identity, by
  which they are compared; the variables that a function closes over and the fields of an
  instance are kept elsewhere, under the identities found here.
-/

namespace Lox

/-- Identity of a frame, the run-time record of the names of one scope. -/
abbrev FrameId := Nat

/-- A place in the nesting of scopes: the frames in view, innermost first. -/
abbrev Scope := List FrameId

/-! ### Things that can be called -/

/-- A function together with the scope it was declared in. -/
structure Closure where
  /-- Its identity. -/
  id : Nat
  /-- Its name, parameters and body. -/
  declaration : FunctionDecl
  /-- The scope around its parameters. -/
  scope : Scope
  /-- Whether it is a method that makes an instance ready. -/
  isInitializer : Bool

/-- The number of arguments a function takes. -/
def Closure.arity (c : Closure) : Nat :=
  c.declaration.params.length

/-- The name of a function. -/
def Closure.name (c : Closure) : String :=
  c.declaration.name.lexeme

/-- What a class declares itself. -/
structure ClassBody where
  /-- The identity of the class. -/
  id : Nat
  /-- Its name. -/
  name : String
  /-- Its own methods, not yet bound to an instance. -/
  methods : Bindings Closure

/-- A class, with all it inherits from. -/
inductive Class where
  /-- A class that inherits from none. -/
  | base (body : ClassBody)
  /-- A class with a superclass. -/
  | derived (body : ClassBody) (superclass : Class)

namespace Class

/-- What the class declares itself. -/
def body : Class → ClassBody
  | base b => b
  | derived b _ => b

/-- The class with the given body and superclass, if any. -/
def make (body : ClassBody) : Option Class → Class
  | some superclass => derived body superclass
  | none => base body

/-- The method of a name in the nearest class that declares it: the class itself, its
    superclass, the superclass of that, and so on. -/
def findMethod? (name : String) : Class → Option Closure
  | base b => b.methods.get? name
  | derived b superclass =>
    match b.methods.get? name with
    | some method => some method
    | none => superclass.findMethod? name

/-- The method that makes an instance ready. -/
def initializer? (c : Class) : Option Closure :=
  c.findMethod? initializerName

/-- The number of arguments for making an instance: that of the initializer, or none. -/
def arity (c : Class) : Nat :=
  c.initializer?.elim 0 (·.arity)

end Class

/-- An instance of a class. -/
structure Instance where
  /-- Its identity, under which its fields are kept. -/
  id : Nat
  /-- Its class. -/
  ofClass : Class

/-- A function that the host provides, known by its name and arity. -/
structure Native where
  /-- Its name. -/
  name : String
  /-- The number of arguments it takes. -/
  arity : Nat
  deriving DecidableEq, Repr

/-! ### Values -/

/-- A value. -/
inductive Value where
  /-- The absent value. -/
  | nil
  /-- A truth value. -/
  | bool (value : Bool)
  /-- A number. -/
  | number (value : Float)
  /-- A string. -/
  | string (text : String)
  /-- A function declared in the program. -/
  | function (closure : Closure)
  /-- A function of the host. -/
  | native (native : Native)
  /-- A class. -/
  | classObject (c : Class)
  /-- An instance. -/
  | object (o : Instance)

namespace Value

/-- The value of a constant. -/
def ofLiteral : Literal → Value
  | .nil => nil
  | .bool b => bool b
  | .number x => number x
  | .string text => string text

/-- Everything counts as true except `nil` and `false`. -/
def isTruthy : Value → Bool
  | nil => false
  | bool b => b
  | _ => true

/-- Equality of values. A number that is not a number equals itself, the two zeros are
    equal, and no value equals one of another kind. Functions, classes and instances are
    equal only if they are the same one. -/
def equals : Value → Value → Bool
  | nil, nil => true
  | bool a, bool b => a == b
  | number a, number b => a == b || (a.isNaN && b.isNaN)
  | string a, string b => a == b
  | function a, function b => a.id == b.id
  | native a, native b => a == b
  | classObject a, classObject b => a.body.id == b.body.id
  | object a, object b => a.id == b.id
  | _, _ => false

/-- A number as programs print it: whole numbers with all their digits and no point, the
    others with the fewest digits that read back. -/
def numberText (x : Float) : String :=
  match Number.whole? x with
  | some w => w.text
  | none => Number.plain x

/-- A value as programs print it. -/
def text : Value → String
  | nil => "nil"
  | bool true => "true"
  | bool false => "false"
  | number x => numberText x
  | string s => s
  | function c => "<fn " ++ c.name ++ ">"
  | native _ => "<native fn>"
  | classObject c => c.body.name
  | object o => o.ofClass.body.name ++ " instance"

end Value

end Lox
