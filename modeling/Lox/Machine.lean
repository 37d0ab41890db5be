import Lox.RuntimeError
import Lox.Host
import Lox.Sink
import Lox.Store.Frames
import Std.Data.TreeMap

/-! # The machine

  All that a running program can change: frames, fields of instances, the identities given
  out, the calls made of the host, the scope it is in, and its output; and the distances of
  its references, which are noted before it runs. `Run` is a computation on a machine that
  may stop with a runtime error, or because it was not given enough steps.
-/

namespace Lox

/-- The distance from each reference to its declaration; references without one are
    global. -/
abbrev Hops := Std.TreeMap NodeId Nat

/-- The state of a running program. -/
structure Machine where
  /-- The variables of every scope entered so far. -/
  frames : Frames Value
  /-- The fields of every instance. -/
  fields : Array (Bindings Value)
  /-- The next identity of a function or class. -/
  serial : Nat
  /-- The number of calls made of the host. -/
  hostCalls : Nat
  /-- The scope the program is in. -/
  scope : Scope
  /-- The distances of references. -/
  hops : Hops
  /-- The output. -/
  sink : Sink

namespace Machine

/-- The outermost scope. -/
def globals : Scope := [0]

/-- A machine that is about to start: the functions of the host are its global names. -/
def start (host : Host) (sink : Sink) : Machine :=
  let names := host.foldl
    (fun names f => names.set f.native.name (.native f.native)) Bindings.empty
  { frames := (Frames.empty.child [] names).2
    fields := #[]
    serial := 0
    hostCalls := 0
    scope := globals
    hops := ∅
    sink }

/-- Notes the distance of a reference. -/
def noteHops (m : Machine) (node : NodeId) (distance : Nat) : Machine :=
  { m with hops := m.hops.insert node distance }

/-- Gives a global name a value. -/
def defineGlobal (m : Machine) (name : String) (value : Value) : Machine :=
  { m with frames := m.frames.define globals name value }

/-- The value of a global name. -/
def global? (m : Machine) (name : String) : Option Value :=
  m.frames.get? globals name

end Machine

/-- Why a computation stopped before its end. -/
inductive Halt where
  /-- A runtime error. -/
  | fault (error : RuntimeError)
  /-- The steps it was given were used up. -/
  | starved
  deriving DecidableEq, Repr

/-- A computation on a machine. -/
abbrev Run := EStateM Halt Machine

namespace Run

/-- Stops with a runtime error at a token. -/
def fail {α : Type} (token : Token) (cause : RuntimeCause) : Run α :=
  throw (.fault ⟨token, cause⟩)

/-- The value, or a complaint that the name is not in reach. -/
def defined {α : Type} (name : Token) : Option α → Run α
  | some value => pure value
  | none => throw (.fault (.undefined name))

/-! ### Scopes -/

/-- A new frame with the given names inside a scope. -/
def child (outer : Scope) (names : Bindings Value) : Run Scope :=
  modifyGet fun m =>
    let (scope, frames) := m.frames.child outer names
    (scope, { m with frames })

/-- Runs a computation in another scope and returns to this one, however it ends. -/
def within {α : Type} (scope : Scope) (body : Run α) : Run α := fun m =>
  let here := m.scope
  match body { m with scope } with
  | .ok a m' => .ok a { m' with scope := here }
  | .error e m' => .error e { m' with scope := here }

/-- Gives a name a value in the current scope. -/
def define (name : String) (value : Value) : Run Unit :=
  modify fun m => { m with frames := m.frames.define m.scope name value }

/-- Gives a name a new value in the frame that has it, or complains that no frame in reach
    does. -/
def assignIn (frame? : Machine → Option FrameId) (name : Token) (value : Value) : Run Unit :=
  fun m =>
    match frame? m with
    | some frame => .ok () { m with frames := m.frames.put frame name.lexeme value }
    | none => .error (.fault (.undefined name)) m

/-- Reads a name in the frame at a distance from a scope. -/
def readAt (scope : Scope) (distance : Nat) (name : Token) : Run Value := do
  defined name ((← get).frames.getAt? scope distance name.lexeme)

/-- The noted distance of a reference. -/
def hopsOf (node : NodeId) : Run (Option Nat) := do
  return (← get).hops.get? node

/-- Reads the variable that a node refers to: at its distance if one was noted, among the
    globals otherwise. -/
def readVariable (node : NodeId) (name : Token) : Run Value := do
  let m ← get
  match m.hops.get? node with
  | some distance => defined name (m.frames.getAt? m.scope distance name.lexeme)
  | none => defined name (m.frames.get? Machine.globals name.lexeme)

/-- Gives the variable that a node refers to a new value. -/
def assignVariable (node : NodeId) (name : Token) (value : Value) : Run Unit := do
  match ← hopsOf node with
  | some distance =>
    assignIn (fun m => m.frames.findAt? m.scope distance name.lexeme) name value
  | none => assignIn (fun m => m.frames.find? Machine.globals name.lexeme) name value

/-! ### Identities -/

/-- An identity that no function or class has yet. -/
def newIdentity : Run Nat :=
  modifyGet fun m => (m.serial, { m with serial := m.serial + 1 })

/-- A function declared in a scope. -/
def newClosure (declaration : FunctionDecl) (scope : Scope) (isInitializer : Bool) :
    Run Closure := do
  return { id := ← newIdentity, declaration, scope, isInitializer }

/-- A new instance of a class, without fields. -/
def newInstance (c : Class) : Run Instance :=
  modifyGet fun m =>
    ({ id := m.fields.size, ofClass := c }, { m with fields := m.fields.push .empty })

/-- A method bound to an instance: a function of its own, with one more frame around it that
    holds `this`. -/
def bindMethod (method : Closure) (target : Instance) : Run Closure := do
  let scope ← child method.scope (.single "this" (.object target))
  newClosure method.declaration scope method.isInitializer

/-! ### Properties -/

/-- The property of an instance: its field, or else the nearest method bound to it. -/
def property (target : Instance) (name : Token) : Run Value := do
  let field := ((← get).fields[target.id]?).bind (·.get? name.lexeme)
  match field with
  | some value => pure value
  | none =>
    match target.ofClass.findMethod? name.lexeme with
    | some method => return .function (← bindMethod method target)
    | none => fail name (.undefinedProperty name.lexeme)

/-- Gives a field of an instance a value. -/
def setField (target : Instance) (name : String) (value : Value) : Run Unit :=
  modify fun m => { m with fields := m.fields.modify target.id (·.set name value) }

/-! ### The host -/

/-- Counts a call of the host; yields the number of calls before it. -/
def countHostCall : Run Nat :=
  modifyGet fun m => (m.hostCalls, { m with hostCalls := m.hostCalls + 1 })

/-! ### Output -/

/-- Prints a line. A refusal is reported at the keyword of the statement. -/
def printLine (keyword : Token) (line : String) : Run Unit := fun m =>
  let (fits, sink) := m.sink.write (line ++ "\n").toUTF8.data
  if fits then .ok () { m with sink }
  else .error (.fault ⟨keyword, .outputRefused sink.refusal⟩) { m with sink }

end Run

end Lox
