import Lox.Evaluation.Evaluator
import Lox.Proofs.Binding.Sites

/-! # What happens in the course of a run

  The evaluator is given as functions from machines to results. To speak of what happens on
  the way, `Calls` relates a call of the evaluator on a machine to the calls it makes itself,
  one constructor for each; `Reaches` is any number of such steps. Three things are observed
  at a call: the frames that it opens, with the construct each of them is for (`Opens`), the
  references that it looks up (`Accesses`), and what it does with classes, methods and
  functions (`Does`).
-/

namespace Lox.Evaluation

open Binding

/-- A call of the evaluator. -/
inductive Call where
  | evaluate (e : Expr)
  | evaluateAll (es : List Expr)
  | invoke (f : Value) (arguments : List Value) (paren : Token)
  | enter (closure : Closure) (arguments : List Value) (paren : Token)
  | instantiate (c : Class) (arguments : List Value) (paren : Token)
  | execute (s : Stmt)
  | executeAll (ss : List Stmt)
  | loop (condition : Expr) (body : Stmt)
  | interpret (ss : List Stmt)

/-- A call with the fuel and the machine it is made with. -/
structure Config where
  fuel : Nat
  call : Call
  machine : Machine

/-- The machine in which the body of a function starts. -/
def activation (closure : Closure) (arguments : List Value) (m : Machine) : Machine :=
  { m with
    frames := (m.frames.child closure.scope
      (argumentFrame closure.declaration.params arguments)).2
    scope := m.frames.records.size :: closure.scope }

/-- The machine in which the statements of a block start. -/
def blockEntry (m : Machine) : Machine :=
  { m with
    frames := (m.frames.child m.scope .empty).2
    scope := m.frames.records.size :: m.scope }

/-- The calls that a call makes. -/
inductive Calls (host : Host) : Config → Config → Prop where
  -- expressions
  | grouping {fuel : Nat} {inner : Expr} {m : Machine} :
      Calls host ⟨fuel + 1, .evaluate (.grouping inner), m⟩ ⟨fuel, .evaluate inner, m⟩
  | unary {fuel : Nat} {operator : Token} {right : Expr} {m : Machine} :
      Calls host ⟨fuel + 1, .evaluate (.unary operator right), m⟩ ⟨fuel, .evaluate right, m⟩
  | binaryLeft {fuel : Nat} {left right : Expr} {operator : Token} {m : Machine} :
      Calls host ⟨fuel + 1, .evaluate (.binary left operator right), m⟩
        ⟨fuel, .evaluate left, m⟩
  | binaryRight {fuel : Nat} {left right : Expr} {operator : Token} {m m' : Machine}
      {a : Value} : evaluate host fuel left m = .ok a m' →
      Calls host ⟨fuel + 1, .evaluate (.binary left operator right), m⟩
        ⟨fuel, .evaluate right, m'⟩
  | logicalLeft {fuel : Nat} {left right : Expr} {operator : Token} {m : Machine} :
      Calls host ⟨fuel + 1, .evaluate (.logical left operator right), m⟩
        ⟨fuel, .evaluate left, m⟩
  | logicalRight {fuel : Nat} {left right : Expr} {operator : Token} {m m' : Machine}
      {a : Value} : evaluate host fuel left m = .ok a m' → decides operator a = false →
      Calls host ⟨fuel + 1, .evaluate (.logical left operator right), m⟩
        ⟨fuel, .evaluate right, m'⟩
  | assigned {fuel : Nat} {node : NodeId} {name : Token} {value : Expr} {m : Machine} :
      Calls host ⟨fuel + 1, .evaluate (.assign node name value), m⟩ ⟨fuel, .evaluate value, m⟩
  | callee {fuel : Nat} {callee : Expr} {paren : Token} {arguments : List Expr} {m : Machine} :
      Calls host ⟨fuel + 1, .evaluate (.call callee paren arguments), m⟩
        ⟨fuel, .evaluate callee, m⟩
  | arguments {fuel : Nat} {callee : Expr} {paren : Token} {arguments : List Expr}
      {m m' : Machine} {f : Value} : evaluate host fuel callee m = .ok f m' →
      Calls host ⟨fuel + 1, .evaluate (.call callee paren arguments), m⟩
        ⟨fuel, .evaluateAll arguments, m'⟩
  | invoke {fuel : Nat} {callee : Expr} {paren : Token} {arguments : List Expr}
      {m m' m'' : Machine} {f : Value} {values : List Value} :
      evaluate host fuel callee m = .ok f m' →
      evaluateAll host fuel arguments m' = .ok values m'' →
      Calls host ⟨fuel + 1, .evaluate (.call callee paren arguments), m⟩
        ⟨fuel, .invoke f values paren, m''⟩
  | got {fuel : Nat} {object : Expr} {name : Token} {m : Machine} :
      Calls host ⟨fuel + 1, .evaluate (.get object name), m⟩ ⟨fuel, .evaluate object, m⟩
  | setObject {fuel : Nat} {object value : Expr} {name : Token} {m : Machine} :
      Calls host ⟨fuel + 1, .evaluate (.set object name value), m⟩ ⟨fuel, .evaluate object, m⟩
  | setValue {fuel : Nat} {object value : Expr} {name : Token} {m m' : Machine}
      {target : Instance} : evaluate host fuel object m = .ok (.object target) m' →
      Calls host ⟨fuel + 1, .evaluate (.set object name value), m⟩ ⟨fuel, .evaluate value, m'⟩
  | first {fuel : Nat} {argument : Expr} {rest : List Expr} {m : Machine} :
      Calls host ⟨fuel + 1, .evaluateAll (argument :: rest), m⟩ ⟨fuel, .evaluate argument, m⟩
  | others {fuel : Nat} {argument : Expr} {rest : List Expr} {m m' : Machine} {v : Value} :
      evaluate host fuel argument m = .ok v m' →
      Calls host ⟨fuel + 1, .evaluateAll (argument :: rest), m⟩ ⟨fuel, .evaluateAll rest, m'⟩
  -- functions and classes
  | function {fuel : Nat} {closure : Closure} {arguments : List Value} {paren : Token}
      {m : Machine} : arguments.length = closure.arity →
      Calls host ⟨fuel + 1, .invoke (.function closure) arguments paren, m⟩
        ⟨fuel, .enter closure arguments paren, m⟩
  | classObject {fuel : Nat} {c : Class} {arguments : List Value} {paren : Token}
      {m : Machine} : arguments.length = c.arity →
      Calls host ⟨fuel + 1, .invoke (.classObject c) arguments paren, m⟩
        ⟨fuel, .instantiate c arguments paren, m⟩
  | body {fuel : Nat} {closure : Closure} {arguments : List Value} {paren : Token}
      {m : Machine} :
      Calls host ⟨fuel + 1, .enter closure arguments paren, m⟩
        ⟨fuel, .executeAll closure.declaration.body, activation closure arguments m⟩
  | initializer {fuel : Nat} {c : Class} {arguments : List Value} {paren : Token}
      {m m' m'' : Machine} {initializer bound : Closure} {target : Instance} :
      Run.newInstance c m = .ok target m' → c.initializer? = some initializer →
      Run.bindMethod initializer target m' = .ok bound m'' →
      Calls host ⟨fuel + 1, .instantiate c arguments paren, m⟩
        ⟨fuel, .enter bound arguments paren, m''⟩
  -- statements
  | expression {fuel : Nat} {value : Expr} {m : Machine} :
      Calls host ⟨fuel + 1, .execute (.expression value), m⟩ ⟨fuel, .evaluate value, m⟩
  | printed {fuel : Nat} {keyword : Token} {value : Expr} {m : Machine} :
      Calls host ⟨fuel + 1, .execute (.print keyword value), m⟩ ⟨fuel, .evaluate value, m⟩
  | declared {fuel : Nat} {name : Token} {initializer : Expr} {m : Machine} :
      Calls host ⟨fuel + 1, .execute (.varDecl name (some initializer)), m⟩
        ⟨fuel, .evaluate initializer, m⟩
  | block {fuel : Nat} {body : List Stmt} {m : Machine} :
      Calls host ⟨fuel + 1, .execute (.block body), m⟩ ⟨fuel, .executeAll body, blockEntry m⟩
  | condition {fuel : Nat} {condition : Expr} {thenBranch : Stmt} {elseBranch : Option Stmt}
      {m : Machine} :
      Calls host ⟨fuel + 1, .execute (.ifElse condition thenBranch elseBranch), m⟩
        ⟨fuel, .evaluate condition, m⟩
  | thenBranch {fuel : Nat} {condition : Expr} {thenBranch : Stmt} {elseBranch : Option Stmt}
      {m m' : Machine} {c : Value} : evaluate host fuel condition m = .ok c m' →
      c.isTruthy = true →
      Calls host ⟨fuel + 1, .execute (.ifElse condition thenBranch elseBranch), m⟩
        ⟨fuel, .execute thenBranch, m'⟩
  | elseBranch {fuel : Nat} {condition : Expr} {thenBranch elseBranch : Stmt}
      {m m' : Machine} {c : Value} : evaluate host fuel condition m = .ok c m' →
      c.isTruthy = false →
      Calls host ⟨fuel + 1, .execute (.ifElse condition thenBranch (some elseBranch)), m⟩
        ⟨fuel, .execute elseBranch, m'⟩
  | whileLoop {fuel : Nat} {condition : Expr} {body : Stmt} {m : Machine} :
      Calls host ⟨fuel + 1, .execute (.whileLoop condition body), m⟩
        ⟨fuel, .loop condition body, m⟩
  | returned {fuel : Nat} {keyword : Token} {value : Expr} {m : Machine} :
      Calls host ⟨fuel + 1, .execute (.ret keyword (some value)), m⟩ ⟨fuel, .evaluate value, m⟩
  | superclass {fuel : Nat} {name : Token} {parent : Expr} {methods : List FunctionDecl}
      {m : Machine} :
      Calls host ⟨fuel + 1, .execute (.classDecl name (some parent) methods), m⟩
        ⟨fuel, .evaluate parent, m⟩
  | firstOf {fuel : Nat} {s : Stmt} {rest : List Stmt} {m : Machine} :
      Calls host ⟨fuel + 1, .executeAll (s :: rest), m⟩ ⟨fuel, .execute s, m⟩
  | restOf {fuel : Nat} {s : Stmt} {rest : List Stmt} {m m' : Machine} :
      execute host fuel s m = .ok .next m' →
      Calls host ⟨fuel + 1, .executeAll (s :: rest), m⟩ ⟨fuel, .executeAll rest, m'⟩
  | loopCondition {fuel : Nat} {condition : Expr} {body : Stmt} {m : Machine} :
      Calls host ⟨fuel + 1, .loop condition body, m⟩ ⟨fuel, .evaluate condition, m⟩
  | loopBody {fuel : Nat} {condition : Expr} {body : Stmt} {m m' : Machine} {c : Value} :
      evaluate host fuel condition m = .ok c m' → c.isTruthy = true →
      Calls host ⟨fuel + 1, .loop condition body, m⟩ ⟨fuel, .execute body, m'⟩
  | again {fuel : Nat} {condition : Expr} {body : Stmt} {m m' m'' : Machine} {c : Value} :
      evaluate host fuel condition m = .ok c m' → c.isTruthy = true →
      execute host fuel body m' = .ok .next m'' →
      Calls host ⟨fuel + 1, .loop condition body, m⟩ ⟨fuel, .loop condition body, m''⟩
  -- programs
  | statement {fuel : Nat} {s : Stmt} {rest : List Stmt} {m : Machine} :
      Calls host ⟨fuel, .interpret (s :: rest), m⟩ ⟨fuel, .execute s, m⟩
  | statements {fuel : Nat} {s : Stmt} {rest : List Stmt} {m m' : Machine} {flow : Flow} :
      execute host fuel s m = .ok flow m' →
      Calls host ⟨fuel, .interpret (s :: rest), m⟩ ⟨fuel, .interpret rest, m'⟩

/-- Any number of calls, one inside the other. -/
inductive Reaches (host : Host) : Config → Config → Prop where
  | refl (c : Config) : Reaches host c c
  | step {c c' c'' : Config} : Calls host c c' → Reaches host c' c'' → Reaches host c c''

/-- The frame that a call opens itself, and the construct it is opened for. Where a method is
    bound, the frame holds the `this` around it. -/
inductive Opens (host : Host) : Config → FrameId → Construct → Prop where
  | block {fuel : Nat} {body : List Stmt} {m : Machine} :
      Opens host ⟨fuel + 1, .execute (.block body), m⟩ m.frames.records.size (.block body)
  | routine {fuel : Nat} {closure : Closure} {arguments : List Value} {paren : Token}
      {m : Machine} :
      Opens host ⟨fuel + 1, .enter closure arguments paren, m⟩ m.frames.records.size
        (.routine closure.declaration)
  | superLayer {fuel : Nat} {name : Token} {parent : Expr} {methods : List FunctionDecl}
      {m m' : Machine} {c : Class} : evaluate host fuel parent m = .ok (.classObject c) m' →
      Opens host ⟨fuel + 1, .execute (.classDecl name (some parent) methods), m⟩
        m'.frames.records.size (.superLayer methods)
  | boundProperty {fuel : Nat} {object : Expr} {name : Token} {m m' : Machine}
      {target : Instance} {method : Closure} :
      evaluate host fuel object m = .ok (.object target) m' →
      (m'.fields[target.id]?).bind (·.get? name.lexeme) = none →
      target.ofClass.findMethod? name.lexeme = some method →
      Opens host ⟨fuel + 1, .evaluate (.get object name), m⟩ m'.frames.records.size
        (.thisLayer method.declaration)
  | boundSuper {fuel : Nat} {node : NodeId} {keyword method : Token} {m m' : Machine}
      {bound : Closure} : superMethod node keyword method m = .ok (.function bound) m' →
      Opens host ⟨fuel + 1, .evaluate (.superRef node keyword method), m⟩
        m.frames.records.size (.thisLayer bound.declaration)
  | boundInitializer {fuel : Nat} {c : Class} {arguments : List Value} {paren : Token}
      {m : Machine} {initializer : Closure} : c.initializer? = some initializer →
      Opens host ⟨fuel + 1, .instantiate c arguments paren, m⟩ m.frames.records.size
        (.thisLayer initializer.declaration)

/-- The reference that a call looks up itself, on the machine it does so. The value of an
    assignment is there before its target is looked for. -/
inductive Accesses (host : Host) : Config → Occurrence → Machine → Prop where
  | read {fuel : Nat} {node : NodeId} {name : Token} {m : Machine} :
      Accesses host ⟨fuel + 1, .evaluate (.var node name), m⟩ (.read node name) m
  | assign {fuel : Nat} {node : NodeId} {name : Token} {value : Expr} {m m' : Machine}
      {v : Value} : evaluate host fuel value m = .ok v m' →
      Accesses host ⟨fuel + 1, .evaluate (.assign node name value), m⟩ (.assign node name) m'
  | self {fuel : Nat} {node : NodeId} {keyword : Token} {m : Machine} :
      Accesses host ⟨fuel + 1, .evaluate (.thisRef node keyword), m⟩ (.self node keyword) m
  | parent {fuel : Nat} {node : NodeId} {keyword method : Token} {m : Machine} :
      Accesses host ⟨fuel + 1, .evaluate (.superRef node keyword method), m⟩
        (.parent node keyword) m

/-- What can become of classes, methods and functions. -/
inductive Event where
  /-- The execution of a class declaration: the class that its superclass came to, and the
      class that was built. -/
  | declared (name : Token) (superclass : Option Expr) (methods : List FunctionDecl)
      (parent : Option Class) (built : Class)
  /-- A method was bound to an instance, which gave a closure. -/
  | bound (method : Closure) (target : Instance) (closure : Closure)
  /-- A function was entered, with a frame for its names. -/
  | entered (closure : Closure) (frame : FrameId)

/-- What a call does itself. A class is there under its name once its declaration has been
    executed. -/
inductive Does (host : Host) : Config → Event → Prop where
  | base {fuel : Nat} {name : Token} {methods : List FunctionDecl} {m m' : Machine}
      {built : Class} : execute host (fuel + 1) (.classDecl name none methods) m = .ok .next m' →
      m'.frames.get? m'.scope name.lexeme = some (.classObject built) →
      Does host ⟨fuel + 1, .execute (.classDecl name none methods), m⟩
        (.declared name none methods none built)
  | derived {fuel : Nat} {name : Token} {superclass : Expr} {methods : List FunctionDecl}
      {m m₁ m' : Machine} {parent built : Class} :
      evaluate host fuel superclass m = .ok (.classObject parent) m₁ →
      execute host (fuel + 1) (.classDecl name (some superclass) methods) m = .ok .next m' →
      m'.frames.get? m'.scope name.lexeme = some (.classObject built) →
      Does host ⟨fuel + 1, .execute (.classDecl name (some superclass) methods), m⟩
        (.declared name (some superclass) methods (some parent) built)
  | boundProperty {fuel : Nat} {object : Expr} {name : Token} {m m' m'' : Machine}
      {target : Instance} {method closure : Closure} :
      evaluate host fuel object m = .ok (.object target) m' →
      (m'.fields[target.id]?).bind (·.get? name.lexeme) = none →
      target.ofClass.findMethod? name.lexeme = some method →
      Run.bindMethod method target m' = .ok closure m'' →
      Does host ⟨fuel + 1, .evaluate (.get object name), m⟩ (.bound method target closure)
  | boundSuper {fuel : Nat} {node : NodeId} {keyword name : Token} {m m' : Machine} {d : Nat}
      {parent : Class} {target : Instance} {method closure : Closure} :
      m.hops.get? node = some d →
      m.frames.getAt? m.scope d keyword.lexeme = some (.classObject parent) →
      m.frames.getAt? m.scope (d - 1) "this" = some (.object target) →
      parent.findMethod? name.lexeme = some method →
      Run.bindMethod method target m = .ok closure m' →
      Does host ⟨fuel + 1, .evaluate (.superRef node keyword name), m⟩
        (.bound method target closure)
  | boundInitializer {fuel : Nat} {c : Class} {arguments : List Value} {paren : Token}
      {m m' m'' : Machine} {target : Instance} {initializer closure : Closure} :
      Run.newInstance c m = .ok target m' → c.initializer? = some initializer →
      Run.bindMethod initializer target m' = .ok closure m'' →
      Does host ⟨fuel + 1, .instantiate c arguments paren, m⟩ (.bound initializer target closure)
  | entered {fuel : Nat} {closure : Closure} {arguments : List Value} {paren : Token}
      {m : Machine} :
      Does host ⟨fuel + 1, .enter closure arguments paren, m⟩
        (.entered closure m.frames.records.size)

end Lox.Evaluation
