import Lox.Token

/-! # Expressions

  The tree of an expression keeps the tokens that later messages point at. Nodes that refer
  to a name carry an identity of their own, under which the distance to their declaration is
  recorded; two occurrences of one name are two nodes.
-/

namespace Lox

/-- Identity of a node that refers to a name. -/
abbrev NodeId := Nat

/-- A constant written in the source text. -/
inductive Literal where
  /-- The absent value. -/
  | nil
  /-- A truth value. -/
  | bool (value : Bool)
  /-- A number. -/
  | number (value : Float)
  /-- A string. -/
  | string (text : String)
  deriving DecidableEq, Repr

/-- An expression. -/
inductive Expr where
  /-- A constant. -/
  | literal (value : Literal)
  /-- An expression between parentheses. -/
  | grouping (inner : Expr)
  /-- An operator before its operand. -/
  | unary (operator : Token) (right : Expr)
  /-- An operator between two operands, both of which are evaluated. -/
  | binary (left : Expr) (operator : Token) (right : Expr)
  /-- `and` or `or`, which may leave the right operand alone. -/
  | logical (left : Expr) (operator : Token) (right : Expr)
  /-- A name that is read. -/
  | var (node : NodeId) (name : Token)
  /-- A name that is given a new value. -/
  | assign (node : NodeId) (name : Token) (value : Expr)
  /-- A call, with the parenthesis that closes it. -/
  | call (callee : Expr) (paren : Token) (arguments : List Expr)
  /-- A property that is read. -/
  | get (object : Expr) (name : Token)
  /-- A field that is given a value. -/
  | set (object : Expr) (name : Token) (value : Expr)
  /-- The instance that a method runs on. -/
  | thisRef (node : NodeId) (keyword : Token)
  /-- A method of the superclass. -/
  | superRef (node : NodeId) (keyword : Token) (method : Token)
  deriving Repr

instance : Inhabited Expr := ⟨.literal .nil⟩

namespace Literal

/-- Constants are alike when they compare equal as values of the language do: no
    not-a-number is like another, and the two zeros are alike. -/
def alike : Literal → Literal → Bool
  | nil, nil => true
  | bool a, bool b => a == b
  | number a, number b => a == b
  | string a, string b => a == b
  | _, _ => false

end Literal

namespace Expr

mutual

/-- Two trees are alike when they have the same shape, their tokens agree, their constants
    are alike and their references are the very same nodes. -/
def alike : Expr → Expr → Bool
  | literal a, literal b => a.alike b
  | grouping a, grouping b => a.alike b
  | unary o a, unary p b => o.agrees p && a.alike b
  | binary a o c, binary b p d => a.alike b && o.agrees p && c.alike d
  | logical a o c, logical b p d => a.alike b && o.agrees p && c.alike d
  | var i a, var j b => i == j && a.agrees b
  | assign i a c, assign j b d => i == j && a.agrees b && c.alike d
  | call a o c, call b p d => a.alike b && o.agrees p && allAlike c d
  | get a o, get b p => a.alike b && o.agrees p
  | set a o c, set b p d => a.alike b && o.agrees p && c.alike d
  | thisRef i a, thisRef j b => i == j && a.agrees b
  | superRef i a c, superRef j b d => i == j && a.agrees b && c.agrees d
  | _, _ => false

/-- Lists of trees that are alike one by one. -/
def allAlike : List Expr → List Expr → Bool
  | [], [] => true
  | a :: as, b :: bs => a.alike b && allAlike as bs
  | _, _ => false

end

end Expr

end Lox
