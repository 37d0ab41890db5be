import Lox.Evaluation.Class
import Lox.Evaluation.Operator

/-! # Running programs

  Expressions evaluate to values; statements run for their effect and say how control leaves
  them (`Flow`). Every step into a subterm, an argument, a further statement or a further
  round of a loop uses up one unit of fuel, and a computation that has none left stops as
  starved. More fuel never changes a computation that ended otherwise.
-/

namespace Lox.Evaluation

/-- How control leaves a statement. -/
inductive Flow where
  /-- On to the next statement. -/
  | next
  /-- Out of the innermost function, with a value. -/
  | returned (value : Value)

/-- The value of a call whose body ended so. -/
def Flow.result : Flow → Value
  | next => .nil
  | returned value => value

/-- Refuses a call with the wrong number of arguments. -/
def checkArity (paren : Token) (expected actual : Nat) : Run Unit :=
  if actual = expected then pure ()
  else Run.fail paren (.arity expected actual)

/-- The names of a call: each parameter with its argument. -/
def argumentFrame (params : List Token) (arguments : List Value) : Bindings Value :=
  (params.zip arguments).foldl (fun names (param, value) => names.set param.lexeme value)
    .empty

/-- Calls a function of the host; its failure is reported at the parenthesis. -/
def callHost (host : Host) (called : Native) (arguments : List Value) (paren : Token) :
    Run Value := do
  let earlier ← Run.countHostCall
  match host.call called arguments earlier with
  | .ok value => pure value
  | .error message => Run.fail paren (.hostFailure message)

/-- Declares a function in the current scope. -/
def declareFunction (f : FunctionDecl) : Run Unit := do
  let closure ← Run.newClosure f (← get).scope false
  Run.define f.name.lexeme (.function closure)

mutual

/-- The value of an expression. -/
def evaluate (host : Host) : Nat → Expr → Run Value
  | 0, _ => throw .starved
  | _ + 1, .literal value => pure (.ofLiteral value)
  | fuel + 1, .grouping inner => evaluate host fuel inner
  | fuel + 1, .unary operator right => do
    applyUnary operator (← evaluate host fuel right)
  | fuel + 1, .binary left operator right => do
    let a ← evaluate host fuel left
    let b ← evaluate host fuel right
    applyBinary operator a b
  | fuel + 1, .logical left operator right => do
    let a ← evaluate host fuel left
    if decides operator a then pure a else evaluate host fuel right
  | _ + 1, .var node name => Run.readVariable node name
  | fuel + 1, .assign node name value => do
    let v ← evaluate host fuel value
    Run.assignVariable node name v
    pure v
  | fuel + 1, .call callee paren arguments => do
    let f ← evaluate host fuel callee
    let values ← evaluateAll host fuel arguments
    invoke host fuel f values paren
  | fuel + 1, .get object name => do
    match ← evaluate host fuel object with
    | .object target => Run.property target name
    | _ => Run.fail name .noProperties
  | fuel + 1, .set object name value => do
    match ← evaluate host fuel object with
    | .object target =>
      let v ← evaluate host fuel value
      Run.setField target name.lexeme v
      pure v
    | _ => Run.fail name .noFields
  | _ + 1, .thisRef node keyword => Run.readVariable node keyword
  | _ + 1, .superRef node keyword method => superMethod node keyword method

/-- The values of arguments, from left to right. -/
def evaluateAll (host : Host) : Nat → List Expr → Run (List Value)
  | 0, _ => throw .starved
  | _ + 1, [] => pure []
  | fuel + 1, argument :: rest => do
    let value ← evaluate host fuel argument
    let values ← evaluateAll host fuel rest
    return value :: values

/-- Calls a value. The closing parenthesis is blamed if it cannot be called so. -/
def invoke (host : Host) : Nat → Value → List Value → Token → Run Value
  | 0, _, _, _ => throw .starved
  | fuel + 1, .function closure, arguments, paren => do
    checkArity paren closure.arity arguments.length
    enter host fuel closure arguments paren
  | _ + 1, .native called, arguments, paren => do
    checkArity paren called.arity arguments.length
    callHost host called arguments paren
  | fuel + 1, .classObject c, arguments, paren => do
    checkArity paren c.arity arguments.length
    instantiate host fuel c arguments paren
  | _ + 1, _, _, paren => Run.fail paren .notCallable

/-- Runs the body of a function in a new frame with its arguments. An initializer yields the
    instance it is bound to, however its body ends. -/
def enter (host : Host) : Nat → Closure → List Value → Token → Run Value
  | 0, _, _, _ => throw .starved
  | fuel + 1, closure, arguments, paren => do
    let scope ← Run.child closure.scope
      (argumentFrame closure.declaration.params arguments)
    let flow ← Run.within scope (executeAll host fuel closure.declaration.body)
    if closure.isInitializer then
      Run.readAt closure.scope 0 (.synthetic "this" paren.line)
    else
      pure flow.result

/-- Makes an instance and runs its initializer, if its class has one. -/
def instantiate (host : Host) : Nat → Class → List Value → Token → Run Value
  | 0, _, _, _ => throw .starved
  | fuel + 1, c, arguments, paren => do
    let target ← Run.newInstance c
    match c.initializer? with
    | some initializer =>
      let bound ← Run.bindMethod initializer target
      let _ ← enter host fuel bound arguments paren
      pure (.object target)
    | none => pure (.object target)

/-- Runs a statement. -/
def execute (host : Host) : Nat → Stmt → Run Flow
  | 0, _ => throw .starved
  | fuel + 1, .expression value => do
    let _ ← evaluate host fuel value
    pure .next
  | fuel + 1, .print keyword value => do
    let v ← evaluate host fuel value
    Run.printLine keyword v.text
    pure .next
  | _ + 1, .varDecl name none => do
    Run.define name.lexeme .nil
    pure .next
  | fuel + 1, .varDecl name (some initializer) => do
    let v ← evaluate host fuel initializer
    Run.define name.lexeme v
    pure .next
  | fuel + 1, .block body => do
    let scope ← Run.child (← get).scope .empty
    Run.within scope (executeAll host fuel body)
  | fuel + 1, .ifElse condition thenBranch elseBranch => do
    let c ← evaluate host fuel condition
    if c.isTruthy then execute host fuel thenBranch
    else
      match elseBranch with
      | some stmt => execute host fuel stmt
      | none => pure .next
  | fuel + 1, .whileLoop condition body => loop host fuel condition body
  | _ + 1, .funDecl f => do
    declareFunction f
    pure .next
  | _ + 1, .ret _ none => pure (.returned .nil)
  | fuel + 1, .ret _ (some value) => do
    return .returned (← evaluate host fuel value)
  | _ + 1, .classDecl name none methods => do
    declareClass name none methods
    pure .next
  | fuel + 1, .classDecl name (some parent) methods => do
    let c ← asClass (superclassToken name parent) (← evaluate host fuel parent)
    declareClass name (some c) methods
    pure .next

/-- Runs statements one after another, until one returns. -/
def executeAll (host : Host) : Nat → List Stmt → Run Flow
  | 0, _ => throw .starved
  | _ + 1, [] => pure .next
  | fuel + 1, stmt :: rest => do
    match ← execute host fuel stmt with
    | .next => executeAll host fuel rest
    | .returned value => pure (.returned value)

/-- Runs a body as long as a condition holds, until the body returns. -/
def loop (host : Host) : Nat → Expr → Stmt → Run Flow
  | 0, _, _ => throw .starved
  | fuel + 1, condition, body => do
    let c ← evaluate host fuel condition
    if c.isTruthy then
      match ← execute host fuel body with
      | .next => loop host fuel condition body
      | .returned value => pure (.returned value)
    else
      pure .next

end

/-- More fuel than any run uses that ends within a lifetime. -/
def ampleFuel : Nat := Nat.pow 10 18

/-- Runs a program. A `return` outside every function is passed over. -/
def interpret (host : Host) (fuel : Nat) : List Stmt → Run Unit
  | [] => pure ()
  | stmt :: rest => do
    let _ ← execute host fuel stmt
    interpret host fuel rest

end Lox.Evaluation
