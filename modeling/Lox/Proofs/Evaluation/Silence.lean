import Lox.Proofs.Evaluation.Courses

/-! # Computations that print nothing

  Of all operations of the machine, printing is the only one that has to do with the output:
  the others are `Silent`. They neither look at the sink nor change it, so that on a machine
  with another one they come to the same.
-/

namespace Lox.Evaluation

variable {α β : Type}

/-- What a computation came to, with its machine changed. -/
def mapMachine (f : Machine → Machine) :
    EStateM.Result Halt Machine α → EStateM.Result Halt Machine α
  | .ok a m => .ok a (f m)
  | .error e m => .error e (f m)

/-- Whether a computation does the same on a machine that was changed, and leaves it changed in the
    same way. -/
def Blind (change : Machine → Machine) (x : Run α) : Prop :=
  ∀ m, x (change m) = mapMachine change (x m)

/-- The machine with another sink. -/
def withSink (sink : Sink) (m : Machine) : Machine :=
  { m with sink }

/-- Whether a computation does the same with every sink, and leaves it as it is. -/
def Silent (x : Run α) : Prop :=
  ∀ m sink, x (withSink sink m) = mapMachine (withSink sink) (x m)

theorem Silent.sink_eq {x : Run α} (h : Silent x) (m : Machine) :
    (machineAfter (x m)).sink = m.sink := by
  have same : x m = mapMachine (withSink m.sink) (x m) := h m m.sink
  rw [same]
  cases x m <;> rfl

/-! ### Putting computations together -/

section

variable {change : Machine → Machine}

theorem blind_pure (a : α) : Blind change (pure a : Run α) :=
  fun _ => rfl

theorem blind_throw (halt : Halt) : Blind change (throw halt : Run α) :=
  fun _ => rfl

theorem blind_bind {x : Run α} {f : α → Run β} (first : Blind change x)
    (second : ∀ a, Blind change (f a)) : Blind change (x >>= f) := by
  intro m
  have start := first m
  cases run : x m with
  | ok a m' =>
    rw [run] at start
    rw [bind_ok start, bind_ok run]
    exact second a m'
  | error e m' =>
    rw [run] at start
    rw [bind_error start, bind_error run]
    rfl

/-- The machine is read, but not what is changed. -/
theorem blind_get {f : Machine → Run α} (h : ∀ m, Blind change (f m))
    (same : ∀ m, f (change m) = f m) : Blind change (get >>= f) := by
  intro m
  -- the machine that was read is also the one that `f` is run on
  show f (change m) (change m) = mapMachine change (f m m)
  rw [same]
  exact h m m

theorem blind_defined (name : Token) (o : Option α) : Blind change (Run.defined name o) := by
  cases o with
  | some a => exact blind_pure a
  | none => exact blind_throw _

theorem blind_asClass (token : Token) (v : Value) : Blind change (asClass token v) := by
  cases v with
  | classObject c => exact blind_pure c
  | _ => exact blind_throw _

theorem blind_asInstance (token : Token) (v : Value) : Blind change (asInstance token v) := by
  cases v with
  | object o => exact blind_pure o
  | _ => exact blind_throw _

end

theorem silent_pure (a : α) : Silent (pure a : Run α) :=
  fun _ _ => rfl

theorem silent_throw (halt : Halt) : Silent (throw halt : Run α) :=
  fun _ _ => rfl

theorem silent_fail (token : Token) (cause : RuntimeCause) :
    Silent (Run.fail token cause : Run α) :=
  silent_throw _

theorem silent_bind {x : Run α} {f : α → Run β} (first : Silent x)
    (second : ∀ a, Silent (f a)) : Silent (x >>= f) :=
  fun m sink => blind_bind (fun m => first m sink) (fun a m => second a m sink) m

/-- The machine is read, but not its sink. -/
theorem silent_get {f : Machine → Run α} (h : ∀ m, Silent (f m))
    (blind : ∀ m sink, f (withSink sink m) = f m) : Silent (get >>= f) :=
  fun m sink => blind_get (fun m' m => h m' m sink) (fun m => blind m sink) m

/-! ### Operations of the machine -/

theorem silent_defined (name : Token) (o : Option α) : Silent (Run.defined name o) :=
  fun m _ => blind_defined name o m

theorem silent_child (outer : Scope) (bindings : Bindings Value) :
    Silent (Run.child outer bindings) :=
  fun _ _ => rfl

theorem silent_define (name : String) (v : Value) : Silent (Run.define name v) :=
  fun _ _ => rfl

theorem silent_assignIn {frame? : Machine → Option FrameId}
    (blind : ∀ m sink, frame? (withSink sink m) = frame? m) (name : Token) (v : Value) :
    Silent (Run.assignIn frame? name v) := by
  intro m sink
  unfold Run.assignIn
  rw [blind]
  cases frame? m <;> rfl

theorem silent_readAt (scope : Scope) (distance : Nat) (name : Token) :
    Silent (Run.readAt scope distance name) :=
  silent_get (fun _ => silent_defined name _) fun _ _ => rfl

theorem silent_hopsOf (node : NodeId) : Silent (Run.hopsOf node) :=
  silent_get (fun _ => silent_pure _) fun _ _ => rfl

theorem silent_readVariable (node : NodeId) (name : Token) :
    Silent (Run.readVariable node name) := by
  refine silent_get ?_ fun _ _ => rfl
  intro m
  cases m.hops.get? node with
  | some distance => exact silent_defined name _
  | none => exact silent_defined name _

theorem silent_assignVariable (node : NodeId) (name : Token) (v : Value) :
    Silent (Run.assignVariable node name v) := by
  apply silent_bind (silent_hopsOf node)
  intro hops
  cases hops with
  | some distance => exact silent_assignIn (fun _ _ => rfl) name v
  | none => exact silent_assignIn (fun _ _ => rfl) name v

theorem silent_newIdentity : Silent Run.newIdentity :=
  fun _ _ => rfl

theorem silent_countHostCall : Silent Run.countHostCall :=
  fun _ _ => rfl

theorem silent_newClosure (f : FunctionDecl) (scope : Scope) (isInitializer : Bool) :
    Silent (Run.newClosure f scope isInitializer) :=
  silent_bind silent_newIdentity fun _ => silent_pure _

theorem silent_newInstance (c : Class) : Silent (Run.newInstance c) :=
  fun _ _ => rfl

theorem silent_bindMethod (method : Closure) (target : Instance) :
    Silent (Run.bindMethod method target) :=
  silent_bind (silent_child _ _) fun _ => silent_newClosure _ _ _

theorem silent_property (target : Instance) (name : Token) :
    Silent (Run.property target name) := by
  refine silent_get ?_ fun _ _ => rfl
  intro m
  cases (m.fields[target.id]?).bind (·.get? name.lexeme) with
  | some v => exact silent_pure v
  | none =>
    cases target.ofClass.findMethod? name.lexeme with
    | some method => exact silent_bind (silent_bindMethod method target) fun _ => silent_pure _
    | none => exact silent_fail name _

theorem silent_setField (target : Instance) (name : String) (v : Value) :
    Silent (Run.setField target name v) :=
  fun _ _ => rfl

/-! ### Classes, operators and calls -/

theorem silent_asClass (token : Token) (v : Value) : Silent (asClass token v) :=
  fun m _ => blind_asClass token v m

theorem silent_asInstance (token : Token) (v : Value) : Silent (asInstance token v) :=
  fun m _ => blind_asInstance token v m

theorem silent_methodTable (scope : Scope) : ∀ (methods : List FunctionDecl)
    (table : Bindings Closure), Silent (methodTable scope methods table)
  | [], _ => silent_pure _
  | method :: rest, _ =>
    silent_bind (silent_newClosure method scope _) fun _ => silent_methodTable scope rest _

theorem silent_methodScope (parent : Option Class) : Silent (methodScope parent) := by
  cases parent with
  | some c => exact silent_get (fun _ => silent_child _ _) fun _ _ => rfl
  | none => exact silent_get (fun _ => silent_pure _) fun _ _ => rfl

theorem silent_declareClass (name : Token) (parent : Option Class)
    (methods : List FunctionDecl) : Silent (declareClass name parent methods) := by
  apply silent_bind (silent_define _ _)
  intro _
  apply silent_bind (silent_methodScope parent)
  intro scope
  apply silent_bind (silent_methodTable scope methods _)
  intro table
  apply silent_bind silent_newIdentity
  intro id
  exact silent_assignIn (fun _ _ => rfl) name _

theorem silent_declareFunction (f : FunctionDecl) : Silent (declareFunction f) := by
  refine silent_get ?_ fun _ _ => rfl
  intro m
  apply silent_bind (silent_newClosure f m.scope false)
  intro closure
  exact silent_define _ _

theorem silent_superMethod (node : NodeId) (keyword method : Token) :
    Silent (superMethod node keyword method) := by
  apply silent_bind (silent_hopsOf node)
  intro hops
  cases hops with
  | none => exact silent_fail keyword _
  | some distance =>
    refine silent_get ?_ fun _ _ => rfl
    intro m
    apply silent_bind (silent_readAt _ _ _)
    intro v
    apply silent_bind (silent_asClass keyword v)
    intro parent
    apply silent_bind (silent_readAt _ _ _)
    intro w
    apply silent_bind (silent_asInstance keyword w)
    intro target
    cases parent.findMethod? method.lexeme with
    | some found => exact silent_bind (silent_bindMethod found target) fun _ => silent_pure _
    | none => exact silent_fail method _

theorem silent_applyUnary (operator : Token) (v : Value) : Silent (applyUnary operator v) := by
  unfold applyUnary
  split
  · split
    · exact silent_pure _
    · exact silent_fail operator _
  · exact silent_pure _
  · exact silent_fail operator _

theorem silent_add (operator : Token) (v w : Value) : Silent (add operator v w) := by
  unfold add
  split
  · exact silent_pure _
  · exact silent_pure _
  · exact silent_fail operator _

theorem silent_calculate (operator : Token) (v w : Value) : Silent (calculate operator v w) := by
  unfold calculate
  split
  · split
    · exact silent_pure _
    · exact silent_fail operator _
  · exact silent_fail operator _

theorem silent_applyBinary (operator : Token) (v w : Value) :
    Silent (applyBinary operator v w) := by
  unfold applyBinary
  split
  · exact silent_add operator v w
  · exact silent_pure _
  · exact silent_pure _
  · exact silent_calculate operator v w

theorem silent_checkArity (paren : Token) (expected actual : Nat) :
    Silent (checkArity paren expected actual) := by
  unfold checkArity
  split
  · exact silent_pure ()
  · exact silent_fail paren _

theorem silent_callHost (host : Host) (called : Native) (arguments : List Value)
    (paren : Token) : Silent (callHost host called arguments paren) := by
  apply silent_bind silent_countHostCall
  intro earlier
  cases host.call called arguments earlier with
  | ok v => exact silent_pure v
  | error message => exact silent_fail paren _

end Lox.Evaluation
