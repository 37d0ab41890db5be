import Lox.Machine

/-! # Classes and superclass methods

  How a class declaration makes a class, and how `super` finds its method.
-/

namespace Lox.Evaluation

/-- The token to blame for a superclass that is no class: its name, or the name of the
    declared class if the superclass is not given by name. -/
def superclassToken (name : Token) : Expr → Token
  | .var _ parent => parent
  | _ => name

/-- A class, or a complaint at the given token. -/
def asClass (token : Token) : Value → Run Class
  | .classObject c => pure c
  | _ => Run.fail token .superclassNotClass

/-- The methods of a class as functions declared in the given scope. A name that is declared
    again takes the place of the earlier one. -/
def methodTable (scope : Scope) : List FunctionDecl → Bindings Closure → Run (Bindings Closure)
  | [], table => pure table
  | method :: rest, table => do
    let closure ← Run.newClosure method scope method.isInitializer
    methodTable scope rest (table.set method.name.lexeme closure)

/-- The scope in which the methods of a class are declared: in a class with a superclass, one
    more frame holds `super`. -/
def methodScope : Option Class → Run Scope
  | some parent => do
    Run.child (← get).scope (.single "super" (.classObject parent))
  | none => do
    return (← get).scope

/-- Declares a class. Its name is known, as `nil`, before its methods are made. -/
def declareClass (name : Token) (parent : Option Class) (methods : List FunctionDecl) :
    Run Unit := do
  Run.define name.lexeme .nil
  let scope ← methodScope parent
  let table ← methodTable scope methods .empty
  let body : ClassBody := { id := ← Run.newIdentity, name := name.lexeme, methods := table }
  Run.assignIn (fun m => m.frames.find? m.scope name.lexeme) name
    (.classObject (.make body parent))

/-- The instance, or a complaint at the given token. -/
def asInstance (token : Token) : Value → Run Instance
  | .object o => pure o
  | _ => Run.fail token .thisNotInstance

/-- The method that `super` names: the nearest one from the superclass on, bound to the
    instance in the frame just inside the one that holds `super`. -/
def superMethod (node : NodeId) (keyword method : Token) : Run Value := do
  match ← Run.hopsOf node with
  | none => Run.fail keyword .superOutside
  | some distance =>
    let scope := (← get).scope
    let parent ← asClass keyword (← Run.readAt scope distance keyword)
    let target ← asInstance keyword
      (← Run.readAt scope (distance - 1) (.synthetic "this" keyword.line))
    match parent.findMethod? method.lexeme with
    | some found => return .function (← Run.bindMethod found target)
    | none => Run.fail method (.undefinedProperty method.lexeme)

end Lox.Evaluation
