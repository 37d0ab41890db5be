import Mathlib.Logic.Relation
import Lox.Proofs.Evaluation.Courses

/-! # Elementary changes

  Whatever a computation of the evaluator does to a machine, on any machine and for any syntax
  tree, it does by changes of a few kinds (`Change`), made one after another (`proceedsAt`).
  So what each of them keeps is kept by every computation, however it ends. Only one operation
  of the machine gives a field of an instance a value: the others are `Quiet`.
-/

namespace Lox.Evaluation

variable {α β : Type} {m m' m'' : Machine}

/-- One change of a machine. -/
inductive Change : Machine → Machine → Prop where
  /-- A frame gets a value under a name. -/
  | put {m : Machine} (frame : FrameId) (name : String) (v : Value) :
      Change m { m with frames := m.frames.put frame name v }
  /-- A frame is opened. -/
  | opened {m : Machine} (bindings : Bindings Value) :
      Change m { m with frames := ⟨m.frames.records.push bindings⟩ }
  /-- Another scope becomes the current one. -/
  | moved {m : Machine} (scope : Scope) : Change m { m with scope }
  /-- An identity is given out. -/
  | numbered {m : Machine} : Change m { m with serial := m.serial + 1 }
  /-- A call of the host is counted. -/
  | counted {m : Machine} : Change m { m with hostCalls := m.hostCalls + 1 }
  /-- An instance is made. -/
  | made {m : Machine} : Change m { m with fields := m.fields.push .empty }
  /-- A field of an instance gets a value. -/
  | set {m : Machine} (target : Nat) (name : String) (v : Value) :
      Change m { m with fields := m.fields.modify target (·.set name v) }
  /-- Bytes are written to the output. -/
  | written {m : Machine} (bytes : Array UInt8) :
      Change m { m with sink := (m.sink.write bytes).2 }

/-- Any number of changes, one after another. -/
abbrev Changes : Machine → Machine → Prop := Relation.ReflTransGen Change

/-- Whether a computation only makes such changes, on every exit path. -/
def Proceeds (x : Run α) : Prop :=
  ∀ m, Changes m (machineAfter (x m))

/-- What a field of an instance holds. -/
def field? (m : Machine) (id : Nat) (name : String) : Option Value :=
  (m.fields[id]?).bind (·.get? name)

/-- All fields hold on one machine what they hold on another. -/
def SameFields (m m' : Machine) : Prop :=
  ∀ id name, field? m' id name = field? m id name

/-- Whether a computation proceeds without a field of an instance getting a value. -/
def Quiet (x : Run α) : Prop :=
  ∀ m, Changes m (machineAfter (x m)) ∧ SameFields m (machineAfter (x m))

theorem Quiet.proceeds {x : Run α} (h : Quiet x) : Proceeds x :=
  fun m => (h m).1

theorem Quiet.sameFields {x : Run α} (h : Quiet x) (m : Machine) :
    SameFields m (machineAfter (x m)) :=
  (h m).2

theorem SameFields.refl (m : Machine) : SameFields m m :=
  fun _ _ => rfl

theorem SameFields.trans (h : SameFields m m') (h' : SameFields m' m'') : SameFields m m'' :=
  fun id name => (h' id name).trans (h id name)

/-- A new instance has no field. -/
theorem sameFields_made (m : Machine) :
    SameFields m { m with fields := m.fields.push .empty } := by
  intro id name
  unfold field?
  rw [Array.getElem?_push]
  split
  · next new =>
    rw [new, Array.getElem?_eq_none (Nat.le_refl _)]
    rfl
  · rfl

/-- Nothing is ever taken away. -/
theorem Change.older (h : Change m m') : Older m m' := by
  have same := fun n => Nat.le_refl n
  cases h with
  | put => exact ⟨Nat.le_of_eq Array.size_modify.symm, same _, same _⟩
  | opened => exact older_child rfl rfl rfl
  | moved => exact ⟨same _, same _, same _⟩
  | numbered => exact ⟨same _, same _, Nat.le_succ _⟩
  | counted => exact ⟨same _, same _, same _⟩
  | made => exact ⟨same _, by simp, same _⟩
  | set => exact ⟨same _, Nat.le_of_eq Array.size_modify.symm, same _⟩
  | written => exact ⟨same _, same _, same _⟩

theorem Changes.older (h : Changes m m') : Older m m' := by
  induction h with
  | refl => exact .refl m
  | tail _ change ih => exact ih.trans change.older

/-! ### Putting computations together -/

theorem proceeds_throw (halt : Halt) : Proceeds (throw halt : Run α) :=
  fun _ => .refl

theorem proceeds_bind {x : Run α} {f : α → Run β} (first : Proceeds x)
    (second : ∀ a, Proceeds (f a)) : Proceeds (x >>= f) := by
  intro m
  have start := first m
  cases run : x m with
  | ok a m' =>
    rw [run] at start
    rw [bind_ok run]
    exact start.trans (second a m')
  | error e m' =>
    rw [run] at start
    rw [bind_error run]
    exact start

theorem proceeds_get {f : Machine → Run α} (h : ∀ m, Proceeds (f m)) :
    Proceeds (get >>= f) :=
  fun m => h m m

/-- The scope is changed before and after. -/
theorem proceeds_within {body : Run α} (h : Proceeds body) (scope : Scope) :
    Proceeds (Run.within scope body) := by
  intro m
  rw [machineAfter_within]
  have inside : Changes m (machineAfter (body { m with scope })) :=
    .head (.moved scope) (h { m with scope })
  exact inside.tail (.moved m.scope)

theorem quiet_pure (a : α) : Quiet (pure a : Run α) :=
  fun m => ⟨.refl, .refl m⟩

theorem quiet_throw (halt : Halt) : Quiet (throw halt : Run α) :=
  fun m => ⟨.refl, .refl m⟩

theorem quiet_fail (token : Token) (cause : RuntimeCause) :
    Quiet (Run.fail token cause : Run α) :=
  quiet_throw _

theorem quiet_bind {x : Run α} {f : α → Run β} (first : Quiet x)
    (second : ∀ a, Quiet (f a)) : Quiet (x >>= f) := by
  intro m
  refine ⟨proceeds_bind first.proceeds (fun a => (second a).proceeds) m, ?_⟩
  have start := first.sameFields m
  cases run : x m with
  | ok a m' =>
    rw [run] at start
    rw [bind_ok run]
    exact start.trans ((second a).sameFields m')
  | error e m' =>
    rw [run] at start
    rw [bind_error run]
    exact start

theorem quiet_get {f : Machine → Run α} (h : ∀ m, Quiet (f m)) : Quiet (get >>= f) :=
  fun m => h m m

/-! ### Operations of the machine -/

theorem quiet_defined (name : Token) (o : Option α) : Quiet (Run.defined name o) := by
  cases o with
  | some a => exact quiet_pure a
  | none => exact quiet_throw _

theorem quiet_child (outer : Scope) (bindings : Bindings Value) :
    Quiet (Run.child outer bindings) :=
  fun _ => ⟨.single (.opened bindings), fun _ _ => rfl⟩

theorem quiet_define (name : String) (v : Value) : Quiet (Run.define name v) := by
  intro m
  refine ⟨?_, fun _ _ => rfl⟩
  show Changes m { m with frames := m.frames.define m.scope name v }
  unfold Frames.define
  split
  · exact .refl
  · next frame outer _ => exact .single (.put frame name v)

theorem quiet_assignIn (frame? : Machine → Option FrameId) (name : Token) (v : Value) :
    Quiet (Run.assignIn frame? name v) := by
  intro m
  unfold Run.assignIn
  cases frame? m with
  | none => exact ⟨.refl, .refl m⟩
  | some frame => exact ⟨.single (.put frame name.lexeme v), fun _ _ => rfl⟩

theorem quiet_readAt (scope : Scope) (distance : Nat) (name : Token) :
    Quiet (Run.readAt scope distance name) :=
  quiet_get fun _ => quiet_defined name _

theorem quiet_hopsOf (node : NodeId) : Quiet (Run.hopsOf node) :=
  quiet_get fun _ => quiet_pure _

theorem quiet_readVariable (node : NodeId) (name : Token) :
    Quiet (Run.readVariable node name) := by
  apply quiet_get
  intro m
  cases m.hops.get? node with
  | some distance => exact quiet_defined name _
  | none => exact quiet_defined name _

theorem quiet_assignVariable (node : NodeId) (name : Token) (v : Value) :
    Quiet (Run.assignVariable node name v) := by
  apply quiet_bind (quiet_hopsOf node)
  intro hops
  cases hops with
  | some distance => exact quiet_assignIn _ name v
  | none => exact quiet_assignIn _ name v

theorem quiet_newIdentity : Quiet Run.newIdentity :=
  fun _ => ⟨.single .numbered, fun _ _ => rfl⟩

theorem quiet_countHostCall : Quiet Run.countHostCall :=
  fun _ => ⟨.single .counted, fun _ _ => rfl⟩

theorem quiet_newClosure (f : FunctionDecl) (scope : Scope) (isInitializer : Bool) :
    Quiet (Run.newClosure f scope isInitializer) :=
  quiet_bind quiet_newIdentity fun _ => quiet_pure _

theorem quiet_newInstance (c : Class) : Quiet (Run.newInstance c) :=
  fun m => ⟨.single .made, sameFields_made m⟩

theorem quiet_bindMethod (method : Closure) (target : Instance) :
    Quiet (Run.bindMethod method target) :=
  quiet_bind (quiet_child _ _) fun _ => quiet_newClosure _ _ _

theorem quiet_property (target : Instance) (name : Token) :
    Quiet (Run.property target name) := by
  apply quiet_get
  intro m
  cases (m.fields[target.id]?).bind (·.get? name.lexeme) with
  | some v => exact quiet_pure v
  | none =>
    cases target.ofClass.findMethod? name.lexeme with
    | some method => exact quiet_bind (quiet_bindMethod method target) fun _ => quiet_pure _
    | none => exact quiet_fail name _

theorem proceeds_setField (target : Instance) (name : String) (v : Value) :
    Proceeds (Run.setField target name v) :=
  fun _ => .single (.set target.id name v)

theorem quiet_printLine (keyword : Token) (line : String) :
    Quiet (Run.printLine keyword line) := by
  intro m
  -- a sink that refuses the line keeps the bytes that fit
  have printed := Change.written (m := m) (line ++ "\n").toUTF8.data
  unfold Run.printLine
  by_cases fits : (m.sink.write (line ++ "\n").toUTF8.data).1 = true
  · simp only [fits, if_true]
    exact ⟨.single printed, fun _ _ => rfl⟩
  · simp only [fits]
    exact ⟨.single printed, fun _ _ => rfl⟩

/-! ### Classes, operators and calls -/

theorem quiet_asClass (token : Token) (v : Value) : Quiet (asClass token v) := by
  cases v with
  | classObject c => exact quiet_pure c
  | _ => exact quiet_fail token _

theorem quiet_asInstance (token : Token) (v : Value) : Quiet (asInstance token v) := by
  cases v with
  | object o => exact quiet_pure o
  | _ => exact quiet_fail token _

theorem quiet_methodTable (scope : Scope) : ∀ (methods : List FunctionDecl)
    (table : Bindings Closure), Quiet (methodTable scope methods table)
  | [], _ => quiet_pure _
  | method :: rest, _ =>
    quiet_bind (quiet_newClosure method scope _) fun _ => quiet_methodTable scope rest _

theorem quiet_methodScope (parent : Option Class) : Quiet (methodScope parent) := by
  cases parent with
  | some c => exact quiet_get fun _ => quiet_child _ _
  | none => exact quiet_get fun _ => quiet_pure _

theorem quiet_declareClass (name : Token) (parent : Option Class)
    (methods : List FunctionDecl) : Quiet (declareClass name parent methods) := by
  apply quiet_bind (quiet_define _ _)
  intro _
  apply quiet_bind (quiet_methodScope parent)
  intro scope
  apply quiet_bind (quiet_methodTable scope methods _)
  intro table
  apply quiet_bind quiet_newIdentity
  intro id
  exact quiet_assignIn _ name _

theorem quiet_declareFunction (f : FunctionDecl) : Quiet (declareFunction f) := by
  apply quiet_get
  intro m
  apply quiet_bind (quiet_newClosure f m.scope false)
  intro closure
  exact quiet_define _ _

theorem quiet_superMethod (node : NodeId) (keyword method : Token) :
    Quiet (superMethod node keyword method) := by
  apply quiet_bind (quiet_hopsOf node)
  intro hops
  cases hops with
  | none => exact quiet_fail keyword _
  | some distance =>
    apply quiet_get
    intro m
    apply quiet_bind (quiet_readAt _ _ _)
    intro v
    apply quiet_bind (quiet_asClass keyword v)
    intro parent
    apply quiet_bind (quiet_readAt _ _ _)
    intro w
    apply quiet_bind (quiet_asInstance keyword w)
    intro target
    cases parent.findMethod? method.lexeme with
    | some found => exact quiet_bind (quiet_bindMethod found target) fun _ => quiet_pure _
    | none => exact quiet_fail method _

theorem YieldsData.quiet {x : Run Value} (h : YieldsData x) : Quiet x := by
  intro m
  rcases h m with ⟨v, run, _⟩ | ⟨e, run⟩ <;> rw [run] <;> exact ⟨.refl, .refl m⟩

theorem quiet_checkArity (paren : Token) (expected actual : Nat) :
    Quiet (checkArity paren expected actual) := by
  unfold checkArity
  split
  · exact quiet_pure ()
  · exact quiet_fail paren _

theorem quiet_callHost (host : Host) (called : Native) (arguments : List Value)
    (paren : Token) : Quiet (callHost host called arguments paren) := by
  apply quiet_bind quiet_countHostCall
  intro earlier
  cases host.call called arguments earlier with
  | ok v => exact quiet_pure v
  | error message => exact quiet_fail paren _

/-! ### The evaluator -/

/-- With some fuel, all computations of the evaluator proceed by changes. -/
structure ProceedsAt (host : Host) (fuel : Nat) : Prop where
  evaluate : ∀ e, Proceeds (evaluate host fuel e)
  evaluateAll : ∀ es, Proceeds (evaluateAll host fuel es)
  invoke : ∀ f arguments paren, Proceeds (invoke host fuel f arguments paren)
  enter : ∀ closure arguments paren, Proceeds (enter host fuel closure arguments paren)
  instantiate : ∀ c arguments paren, Proceeds (instantiate host fuel c arguments paren)
  execute : ∀ s, Proceeds (execute host fuel s)
  executeAll : ∀ ss, Proceeds (executeAll host fuel ss)
  loop : ∀ condition body, Proceeds (loop host fuel condition body)

section

variable {host : Host} {fuel : Nat}

theorem proceeds_evaluate (h : ProceedsAt host fuel) (e : Expr) :
    Proceeds (evaluate host (fuel + 1) e) := by
  cases e with
  | literal value => exact (quiet_pure _).proceeds
  | grouping inner => exact h.evaluate inner
  | unary operator right =>
    exact proceeds_bind (h.evaluate right) fun v => (applyUnary_data operator v).quiet.proceeds
  | binary left operator right =>
    apply proceeds_bind (h.evaluate left)
    intro v
    exact proceeds_bind (h.evaluate right) fun w =>
      (applyBinary_data operator v w).quiet.proceeds
  | logical left operator right =>
    apply proceeds_bind (h.evaluate left)
    intro v
    split
    · exact (quiet_pure v).proceeds
    · exact h.evaluate right
  | var node name => exact (quiet_readVariable node name).proceeds
  | assign node name value =>
    apply proceeds_bind (h.evaluate value)
    intro v
    exact (quiet_bind (quiet_assignVariable node name v) fun _ => quiet_pure v).proceeds
  | call callee paren arguments =>
    apply proceeds_bind (h.evaluate callee)
    intro f
    apply proceeds_bind (h.evaluateAll arguments)
    intro values
    exact h.invoke f values paren
  | get object name =>
    apply proceeds_bind (h.evaluate object)
    intro v
    cases v with
    | object target => exact (quiet_property target name).proceeds
    | _ => exact (quiet_fail name _).proceeds
  | set object name value =>
    apply proceeds_bind (h.evaluate object)
    intro v
    cases v with
    | object target =>
      -- here alone a field gets a value
      apply proceeds_bind (h.evaluate value)
      intro w
      exact proceeds_bind (proceeds_setField target _ w) fun _ => (quiet_pure w).proceeds
    | _ => exact (quiet_fail name _).proceeds
  | thisRef node keyword => exact (quiet_readVariable node keyword).proceeds
  | superRef node keyword method => exact (quiet_superMethod node keyword method).proceeds

theorem proceeds_evaluateAll (h : ProceedsAt host fuel) (es : List Expr) :
    Proceeds (evaluateAll host (fuel + 1) es) := by
  cases es with
  | nil => exact (quiet_pure _).proceeds
  | cons argument rest =>
    apply proceeds_bind (h.evaluate argument)
    intro v
    exact proceeds_bind (h.evaluateAll rest) fun _ => (quiet_pure _).proceeds

theorem proceeds_invoke (h : ProceedsAt host fuel) (f : Value) (arguments : List Value)
    (paren : Token) : Proceeds (invoke host (fuel + 1) f arguments paren) := by
  cases f with
  | function closure =>
    exact proceeds_bind (quiet_checkArity paren _ _).proceeds fun _ =>
      h.enter closure arguments paren
  | native called =>
    exact (quiet_bind (quiet_checkArity paren _ _) fun _ =>
      quiet_callHost host called arguments paren).proceeds
  | classObject c =>
    exact proceeds_bind (quiet_checkArity paren _ _).proceeds fun _ =>
      h.instantiate c arguments paren
  | _ => exact (quiet_fail paren _).proceeds

theorem proceeds_enter (h : ProceedsAt host fuel) (closure : Closure) (arguments : List Value)
    (paren : Token) : Proceeds (enter host (fuel + 1) closure arguments paren) := by
  apply proceeds_bind (quiet_child _ _).proceeds
  intro scope
  apply proceeds_bind (proceeds_within (h.executeAll closure.declaration.body) scope)
  intro flow
  split
  · exact (quiet_readAt _ _ _).proceeds
  · exact (quiet_pure _).proceeds

theorem proceeds_instantiate (h : ProceedsAt host fuel) (c : Class) (arguments : List Value)
    (paren : Token) : Proceeds (instantiate host (fuel + 1) c arguments paren) := by
  apply proceeds_bind (quiet_newInstance c).proceeds
  intro target
  cases c.initializer? with
  | some initializer =>
    apply proceeds_bind (quiet_bindMethod initializer target).proceeds
    intro bound
    exact proceeds_bind (h.enter bound arguments paren) fun _ => (quiet_pure _).proceeds
  | none => exact (quiet_pure _).proceeds

theorem proceeds_execute (h : ProceedsAt host fuel) (s : Stmt) :
    Proceeds (execute host (fuel + 1) s) := by
  cases s with
  | expression value => exact proceeds_bind (h.evaluate value) fun _ => (quiet_pure _).proceeds
  | print keyword value =>
    apply proceeds_bind (h.evaluate value)
    intro v
    exact (quiet_bind (quiet_printLine keyword v.text) fun _ => quiet_pure _).proceeds
  | varDecl name initializer =>
    cases initializer with
    | none => exact (quiet_bind (quiet_define _ _) fun _ => quiet_pure _).proceeds
    | some e =>
      apply proceeds_bind (h.evaluate e)
      intro v
      exact (quiet_bind (quiet_define _ v) fun _ => quiet_pure _).proceeds
  | block body =>
    apply proceeds_get
    intro m
    exact proceeds_bind (quiet_child _ _).proceeds fun scope =>
      proceeds_within (h.executeAll body) scope
  | ifElse condition thenBranch elseBranch =>
    apply proceeds_bind (h.evaluate condition)
    intro c
    split
    · exact h.execute thenBranch
    · cases elseBranch with
      | none => exact (quiet_pure _).proceeds
      | some stmt => exact h.execute stmt
  | whileLoop condition body => exact h.loop condition body
  | funDecl f => exact (quiet_bind (quiet_declareFunction f) fun _ => quiet_pure _).proceeds
  | ret keyword value =>
    cases value with
    | none => exact (quiet_pure _).proceeds
    | some e => exact proceeds_bind (h.evaluate e) fun _ => (quiet_pure _).proceeds
  | classDecl name superclass methods =>
    cases superclass with
    | none =>
      exact (quiet_bind (quiet_declareClass name none methods) fun _ => quiet_pure _).proceeds
    | some parent =>
      apply proceeds_bind (h.evaluate parent)
      intro v
      refine Quiet.proceeds (quiet_bind (quiet_asClass (superclassToken name parent) v) ?_)
      intro c
      exact quiet_bind (quiet_declareClass name (some c) methods) fun _ => quiet_pure _

theorem proceeds_executeAll (h : ProceedsAt host fuel) (ss : List Stmt) :
    Proceeds (executeAll host (fuel + 1) ss) := by
  cases ss with
  | nil => exact (quiet_pure _).proceeds
  | cons s rest =>
    apply proceeds_bind (h.execute s)
    intro flow
    cases flow with
    | next => exact h.executeAll rest
    | returned v => exact (quiet_pure _).proceeds

theorem proceeds_loop (h : ProceedsAt host fuel) (condition : Expr) (body : Stmt) :
    Proceeds (loop host (fuel + 1) condition body) := by
  apply proceeds_bind (h.evaluate condition)
  intro c
  split
  · apply proceeds_bind (h.execute body)
    intro flow
    cases flow with
    | next => exact h.loop condition body
    | returned v => exact (quiet_pure _).proceeds
  · exact (quiet_pure _).proceeds

theorem proceedsAt (host : Host) (fuel : Nat) : ProceedsAt host fuel := by
  -- on the fuel, as every computation is made of others with less of it
  induction fuel with
  | zero =>
    exact ⟨fun _ => proceeds_throw _, fun _ => proceeds_throw _, fun _ _ _ => proceeds_throw _,
      fun _ _ _ => proceeds_throw _, fun _ _ _ => proceeds_throw _, fun _ => proceeds_throw _,
      fun _ => proceeds_throw _, fun _ _ => proceeds_throw _⟩
  | succ fuel ih =>
    exact ⟨proceeds_evaluate ih, proceeds_evaluateAll ih, proceeds_invoke ih, proceeds_enter ih,
      proceeds_instantiate ih, proceeds_execute ih, proceeds_executeAll ih, proceeds_loop ih⟩

end

end Lox.Evaluation
