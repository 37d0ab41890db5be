import Lox.Binding.BindingError
import Lox.Binding.Layer

/-! # Relating names to declarations

  A walk over a program finds, for every reference, how many layers out its declaration
  stands, and the misuses of names and keywords. What is found at a node depends only on the
  layers around it and on the kind of function and class it stands in, all of which are
  passed down; the only thing passed along a list of statements is what they declare
  (`Layers.after`).
-/

namespace Lox.Binding

/-! ### What surrounds a node -/

/-- The innermost function around a node. -/
inductive RoutineContext where
  /-- None: top-level code. -/
  | outside
  /-- A function. -/
  | function
  /-- A method that makes instances ready. -/
  | initializer
  /-- Any other method. -/
  | method
  deriving DecidableEq, Repr

/-- The innermost class around a node. -/
inductive ClassContext where
  /-- None. -/
  | outside
  /-- A class that inherits from none. -/
  | plain
  /-- A class with a superclass. -/
  | derived
  deriving DecidableEq, Repr

/-- The function and class around a node. -/
structure Context where
  /-- The innermost function. -/
  routine : RoutineContext
  /-- The innermost class. -/
  classContext : ClassContext
  deriving DecidableEq, Repr

/-- Top-level code. -/
def Context.top : Context := ⟨.outside, .outside⟩

/-! ### What a walk finds -/

/-- A node that refers to a name, with the number of layers out to its declaration; none for
    a name that no layer has, which is global. -/
structure Reference where
  /-- The node. -/
  node : NodeId
  /-- The name it refers to. -/
  name : Token
  /-- The distance to the declaration. -/
  hops : Option Nat
  deriving DecidableEq, Repr

/-- Errors and references, each in the order of the walk. -/
structure Findings where
  /-- The misuses. -/
  errors : List BindingError
  /-- The references. -/
  references : List Reference
  deriving DecidableEq, Repr

namespace Findings

/-- Nothing found. -/
def none : Findings := ⟨[], []⟩

/-- What is found first, then what is found later. -/
def append (a b : Findings) : Findings :=
  ⟨a.errors ++ b.errors, a.references ++ b.references⟩

instance : Append Findings := ⟨append⟩

/-- An error, if a condition holds. -/
def errorIf (condition : Bool) (token : Token) (cause : Cause) : Findings :=
  ⟨if condition then [⟨token, cause⟩] else [], []⟩

/-- A reference to a name from within the given layers. -/
def reference (layers : Layers) (node : NodeId) (name : Token) : Findings :=
  ⟨[], [⟨node, name, layers.hops? name⟩]⟩

end Findings

/-! ### Expressions -/

/-- What is wrong with `super` in a class context. -/
def superErrors (context : ClassContext) (keyword : Token) : Findings :=
  .errorIf (context == .outside) keyword .superOutside ++
    .errorIf (context == .plain) keyword .superWithoutSuperclass

mutual

/-- The findings in an expression. The value of an assignment comes before its target. -/
def inExpr (context : Context) (layers : Layers) : Expr → Findings
  | .literal _ => .none
  | .grouping inner => inExpr context layers inner
  | .unary _ right => inExpr context layers right
  | .binary left _ right => inExpr context layers left ++ inExpr context layers right
  | .logical left _ right => inExpr context layers left ++ inExpr context layers right
  | .var node name =>
    .errorIf (layers.initializes name) name .readInInitializer ++
      .reference layers node name
  | .assign node name value =>
    inExpr context layers value ++ .reference layers node name
  | .call callee _ arguments =>
    inExpr context layers callee ++ inArguments context layers arguments
  | .get object _ => inExpr context layers object
  | .set object _ value => inExpr context layers value ++ inExpr context layers object
  | .thisRef node keyword =>
    if context.classContext = .outside then .errorIf true keyword .thisOutside
    else .reference layers node keyword
  | .superRef node keyword _ =>
    superErrors context.classContext keyword ++ .reference layers node keyword

/-- The findings in the arguments of a call. -/
def inArguments (context : Context) (layers : Layers) : List Expr → Findings
  | [] => .none
  | argument :: rest => inExpr context layers argument ++ inArguments context layers rest

end

/-- The findings in an expression that may be absent. -/
def inOption (context : Context) (layers : Layers) : Option Expr → Findings
  | some e => inExpr context layers e
  | none => .none

/-! ### Statements -/

/-- A complaint if the innermost layer already has a name. -/
def redeclaration (layers : Layers) (name : Token) : Findings :=
  .errorIf (layers.redeclares name) name .redeclaration

/-- The findings in a parameter list, which shares the innermost layer with the body. -/
def inParams (layers : Layers) : List Token → Findings
  | [] => .none
  | param :: rest => redeclaration layers param ++ inParams (layers.define param) rest

/-- The layers around the body of a function: one more, with its parameters. -/
def bodyLayers (layers : Layers) (params : List Token) : Layers :=
  params.foldl Layers.define (.empty :: layers)

/-- What is wrong with a `return`. -/
def returnErrors (context : RoutineContext) (keyword : Token) (hasValue : Bool) : Findings :=
  .errorIf (context == .outside) keyword .returnOutside ++
    .errorIf (hasValue && context == .initializer) keyword .returnFromInitializer

/-- A complaint if a class names itself as its superclass. -/
def selfInheritance (name : Token) : Expr → Findings
  | .var _ parent => .errorIf (parent.lexeme == name.lexeme) parent .selfInheritance
  | _ => .none

/-- The findings in the superclass of a class, whose name is known there already. -/
def inSuperclass (context : Context) (layers : Layers) (name : Token) :
    Option Expr → Findings
  | some parent =>
    selfInheritance name parent ++
      inExpr { context with classContext := .derived } layers parent
  | none => .none

/-- The context of the methods of a class. -/
def classContext (context : Context) (derived : Bool) : Context :=
  { context with classContext := if derived then .derived else .plain }

/-- The kind of a method. -/
def methodContext (method : FunctionDecl) : RoutineContext :=
  if method.isInitializer then .initializer else .method

mutual

/-- The findings in a statement. -/
def inStmt (context : Context) (layers : Layers) : Stmt → Findings
  | .expression value => inExpr context layers value
  | .print _ value => inExpr context layers value
  | .varDecl name initializer =>
    redeclaration layers name ++ inOption context (layers.declare name) initializer
  | .block body => inStmts context (.empty :: layers) body
  | .ifElse condition thenBranch none =>
    inExpr context layers condition ++ inStmt context layers thenBranch
  | .ifElse condition thenBranch (some elseBranch) =>
    inExpr context layers condition ++ inStmt context layers thenBranch ++
      inStmt context (layers.after thenBranch) elseBranch
  | .whileLoop condition body => inExpr context layers condition ++ inStmt context layers body
  | .funDecl f =>
    redeclaration layers f.name ++
      inFunction context .function (layers.define f.name) f
  | .ret keyword value =>
    returnErrors context.routine keyword value.isSome ++ inOption context layers value
  | .classDecl name parent methods =>
    let known := layers.define name
    redeclaration layers name ++ inSuperclass context known name parent ++
      inMethods (classContext context parent.isSome) (known.ofClass parent.isSome) methods

/-- The findings in a list of statements of one scope. -/
def inStmts (context : Context) (layers : Layers) : List Stmt → Findings
  | [] => .none
  | stmt :: rest =>
    inStmt context layers stmt ++ inStmts context (layers.after stmt) rest

/-- The findings in a function or method. -/
def inFunction (context : Context) (kind : RoutineContext) (layers : Layers) :
    FunctionDecl → Findings
  | ⟨_, params, body⟩ =>
    inParams (.empty :: layers) params ++
      inStmts { context with routine := kind } (bodyLayers layers params) body

/-- The findings in the methods of a class. -/
def inMethods (context : Context) (layers : Layers) : List FunctionDecl → Findings
  | [] => .none
  | method :: rest =>
    inFunction context (methodContext method) layers method ++
      inMethods context layers rest

end

/-- The findings in a program. -/
def resolve (program : List Stmt) : Findings :=
  inStmts .top [] program

/-- The errors of a program as diagnostics. -/
def Findings.diagnostics (findings : Findings) : List Diagnostic :=
  findings.errors.map (·.diagnostic)

end Lox.Binding
