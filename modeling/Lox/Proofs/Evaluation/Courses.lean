import Lox.Proofs.Evaluation.Operations

/-! # What every computation does to a machine

  Frames, instances and identities are only ever added, and a frame that is there gets a new
  name only by a declaration that is carried out while it is the innermost one (`Course`). So
  much is true of every computation of the evaluator, on any machine and for any syntax tree,
  however it ends (`Adds`); the names it may add are those that its statements declare
  (`added`), and expressions add none.
-/

namespace Lox.Evaluation

variable {α β : Type} {m m' m'' : Machine} {names more : List String}

/-! ### Courses -/

/-- A machine has all frames, instances and identities that another one has. -/
structure Older (m m' : Machine) : Prop where
  frames : m.frames.records.size ≤ m'.frames.records.size
  fields : m.fields.size ≤ m'.fields.size
  serial : m.serial ≤ m'.serial

theorem Older.refl (m : Machine) : Older m m :=
  ⟨Nat.le_refl _, Nat.le_refl _, Nat.le_refl _⟩

theorem Older.trans (h : Older m m') (h' : Older m' m'') : Older m m'' :=
  ⟨Nat.le_trans h.frames h'.frames, Nat.le_trans h.fields h'.fields,
    Nat.le_trans h.serial h'.serial⟩

/-- The machine with one frame more, in another scope. -/
theorem older_child {bindings : Bindings Value}
    (frames : m'.frames = ⟨m.frames.records.push bindings⟩) (fields : m'.fields = m.fields)
    (serial : m'.serial = m.serial) : Older m m' := by
  refine ⟨?_, Nat.le_of_eq (by rw [fields]), Nat.le_of_eq serial.symm⟩
  rw [frames]
  show m.frames.records.size ≤ (m.frames.records.push bindings).size
  simp

/-- What becomes of a machine by a computation that may add names to the innermost frame. -/
structure Course (names : List String) (m m' : Machine) : Prop extends Older m m' where
  scope : m'.scope = m.scope
  absent : ∀ frame name, frame < m.frames.records.size → m.frames.lookup? frame name = none →
    (name ∈ names → m.scope.head? ≠ some frame) → m'.frames.lookup? frame name = none

theorem Course.refl (m : Machine) : Course names m m :=
  ⟨.refl m, rfl, fun _ _ _ missing _ => missing⟩

theorem Course.trans (h : Course names m m') (h' : Course names m' m'') :
    Course names m m'' := by
  refine ⟨h.toOlder.trans h'.toOlder, h'.scope.trans h.scope, ?_⟩
  intro frame name below missing other
  apply h'.absent frame name (Nat.lt_of_lt_of_le below h.frames)
    (h.absent frame name below missing other)
  rw [h.scope]
  exact other

theorem Course.widen (h : Course names m m') (wider : ∀ name ∈ names, name ∈ more) :
    Course more m m' := by
  refine ⟨h.toOlder, h.scope, ?_⟩
  intro frame name below missing other
  exact h.absent frame name below missing fun mem => other (wider name mem)

/-- A change to no frame. -/
theorem Course.of_frames (older : Older m m') (frames : m'.frames = m.frames)
    (scope : m'.scope = m.scope) : Course names m m' := by
  refine ⟨older, scope, ?_⟩
  intro frame name _ missing _
  rw [frames]
  exact missing

theorem lookup?_put_none {frames : Frames Value} {target frame : FrameId} {name other : String}
    {v : Value} (missing : frames.lookup? frame other = none)
    (elsewhere : other = name → target ≠ frame) :
    (frames.put target name v).lookup? frame other = none := by
  by_cases same : other = name
  · rw [frames.lookup?_put_of_frame_ne _ _ _ (elsewhere same)]
    exact missing
  · rw [frames.lookup?_put_of_name_ne _ _ _ same]
    exact missing

/-- A value is put where there is one already, or under a name that may be added. -/
theorem Course.put {frame : FrameId} {name : String} {v : Value}
    (there : Bound m frame name ∨ name ∈ names ∧ m.scope.head? = some frame) :
    Course names m { m with frames := m.frames.put frame name v } := by
  refine ⟨⟨?_, Nat.le_refl _, Nat.le_refl _⟩, rfl, ?_⟩
  · show m.frames.records.size ≤ (m.frames.records.modify frame _).size
    rw [Array.size_modify]
  · intro frame' other _ missing elsewhere
    apply lookup?_put_none missing
    rintro rfl rfl
    rcases there with bound | ⟨mem, front⟩
    · simp [Bound, missing] at bound
    · exact elsewhere mem front

/-- Opening a frame changes none of those that are there. -/
theorem Course.child {bindings : Bindings Value}
    (frames : m'.frames = ⟨m.frames.records.push bindings⟩) (fields : m'.fields = m.fields)
    (serial : m'.serial = m.serial) (scope : m'.scope = m.scope) : Course names m m' := by
  refine ⟨older_child frames fields serial, scope, ?_⟩
  intro frame name below missing _
  rw [frames, lookup?_push, if_neg (Nat.ne_of_lt below)]
  exact missing

/-- What happens in a frame of its own adds nothing to the frames that are there. -/
theorem Course.inside {outer : Scope} {bindings : Bindings Value}
    (h : Course names
      { m with
        frames := ⟨m.frames.records.push bindings⟩
        scope := m.frames.records.size :: outer } m') :
    Course more m { m' with scope := m.scope } := by
  have opened : Course more m { m with frames := ⟨m.frames.records.push bindings⟩ } :=
    .child rfl rfl rfl rfl
  refine ⟨⟨Nat.le_trans opened.frames h.frames, h.fields, h.serial⟩, rfl, ?_⟩
  intro frame name below missing other
  apply h.absent frame name (Nat.lt_of_lt_of_le below opened.frames)
    (opened.absent frame name below missing other)
  -- the innermost frame is the new one
  intro _ front
  cases front
  exact Nat.lt_irrefl _ below

/-! ### Computations -/

/-- The machine that a computation leaves behind, however it ends. -/
def machineAfter : EStateM.Result Halt Machine α → Machine
  | .ok _ m => m
  | .error _ m => m

/-- Whether a computation adds no other names to any machine, on every exit path. -/
def Adds (names : List String) (x : Run α) : Prop :=
  ∀ m, Course names m (machineAfter (x m))

theorem Adds.ok {x : Run α} (h : Adds names x) {a : α} (run : x m = .ok a m') :
    Course names m m' := by
  have course := h m
  rw [run] at course
  exact course

theorem Adds.widen {x : Run α} (h : Adds names x) (wider : ∀ name ∈ names, name ∈ more) :
    Adds more x :=
  fun m => (h m).widen wider

/-- What adds nothing may stand where something may be added. -/
theorem Adds.quiet {x : Run α} (h : Adds [] x) : Adds more x :=
  h.widen fun _ no => absurd no List.not_mem_nil

theorem adds_pure (a : α) : Adds names (pure a : Run α) :=
  fun m => .refl m

theorem adds_throw (halt : Halt) : Adds names (throw halt : Run α) :=
  fun m => .refl m

theorem adds_fail (token : Token) (cause : RuntimeCause) :
    Adds names (Run.fail token cause : Run α) :=
  adds_throw _

theorem adds_bind {x : Run α} {f : α → Run β} (first : Adds names x)
    (second : ∀ a, Adds names (f a)) : Adds names (x >>= f) := by
  intro m
  have start := first m
  cases run : x m with
  | ok a m' =>
    rw [run] at start
    rw [bind_ok run]
    exact start.trans (second a m')
  | error e m' =>
    rw [run] at start
    rw [bind_error run]
    exact start

theorem adds_get {f : Machine → Run α} (h : ∀ m, Adds names (f m)) :
    Adds names (get >>= f) :=
  fun m => h m m

/-- A computation in another scope leaves what it would leave there, but for the scope. -/
theorem machineAfter_within (scope : Scope) (body : Run α) (m : Machine) :
    machineAfter (Run.within scope body m) =
      { machineAfter (body { m with scope }) with scope := m.scope } := by
  unfold Run.within
  cases body { m with scope } <;> rfl

/-- A computation in a frame of its own, whatever it may add there. -/
theorem adds_inside {body : Run α} (h : Adds names body) (outer : Scope)
    (bindings : Bindings Value) :
    Adds more (Run.child outer bindings >>= fun scope => Run.within scope body) := by
  intro m
  let m₁ : Machine :=
    { m with
      frames := ⟨m.frames.records.push bindings⟩
      scope := m.frames.records.size :: outer }
  have course : Course names m₁ (machineAfter (body m₁)) := h m₁
  have whole : machineAfter ((Run.child outer bindings >>= fun scope => Run.within scope body) m) =
      { machineAfter (body m₁) with scope := m.scope } :=
    machineAfter_within _ body { m with frames := ⟨m.frames.records.push bindings⟩ }
  rw [whole]
  exact course.inside

/-! ### Operations of the machine -/

theorem adds_defined (name : Token) (o : Option α) : Adds names (Run.defined name o) := by
  cases o with
  | some a => exact adds_pure a
  | none => exact adds_throw _

theorem adds_child (outer : Scope) (bindings : Bindings Value) :
    Adds names (Run.child outer bindings) :=
  fun _ => .child rfl rfl rfl rfl

theorem adds_define {name : String} (mem : name ∈ names) (v : Value) :
    Adds names (Run.define name v) := by
  intro m
  show Course names m { m with frames := m.frames.define m.scope name v }
  unfold Frames.define
  split
  · -- without a frame nothing is defined
    exact .of_frames (.refl m) rfl rfl
  · next frame outer hscope =>
    have front : m.scope.head? = some frame := by rw [hscope, List.head?_cons]
    exact .put (.inr ⟨mem, front⟩)

/-- An assignment adds nothing if it goes to a frame that has the name. -/
theorem adds_assignIn {frame? : Machine → Option FrameId} {name : Token}
    (has : ∀ m frame, frame? m = some frame → Bound m frame name.lexeme) (v : Value) :
    Adds names (Run.assignIn frame? name v) := by
  intro m
  unfold Run.assignIn
  cases found : frame? m with
  | none => exact .refl m
  | some frame => exact .put (.inl (has m frame found))

theorem bound_of_find? {scope : Scope} {name : String} {frame : FrameId}
    (found : m.frames.find? scope name = some frame) : Bound m frame name :=
  (List.find?_some found :)

theorem bound_of_findAt? {scope : Scope} {distance : Nat} {name : String} {frame : FrameId}
    (found : m.frames.findAt? scope distance name = some frame) : Bound m frame name := by
  unfold Frames.findAt? at found
  split at found
  · split at found
    · next has =>
      cases found
      exact has
    · cases found
  · cases found

theorem adds_readAt (scope : Scope) (distance : Nat) (name : Token) :
    Adds names (Run.readAt scope distance name) :=
  adds_get fun _ => adds_defined name _

theorem adds_hopsOf (node : NodeId) : Adds names (Run.hopsOf node) :=
  adds_get fun _ => adds_pure _

theorem adds_readVariable (node : NodeId) (name : Token) :
    Adds names (Run.readVariable node name) := by
  apply adds_get
  intro m
  cases m.hops.get? node with
  | some distance => exact adds_defined name _
  | none => exact adds_defined name _

theorem adds_assignVariable (node : NodeId) (name : Token) (v : Value) :
    Adds names (Run.assignVariable node name v) := by
  apply adds_bind (adds_hopsOf node)
  intro hops
  cases hops with
  | some distance => exact adds_assignIn (fun _ _ found => bound_of_findAt? found) v
  | none => exact adds_assignIn (fun _ _ found => bound_of_find? found) v

theorem adds_newIdentity : Adds names Run.newIdentity :=
  fun _ => .of_frames ⟨Nat.le_refl _, Nat.le_refl _, Nat.le_succ _⟩ rfl rfl

theorem adds_countHostCall : Adds names Run.countHostCall :=
  fun _ => .of_frames ⟨Nat.le_refl _, Nat.le_refl _, Nat.le_refl _⟩ rfl rfl

theorem adds_newClosure (f : FunctionDecl) (scope : Scope) (isInitializer : Bool) :
    Adds names (Run.newClosure f scope isInitializer) :=
  adds_bind adds_newIdentity fun _ => adds_pure _

theorem adds_newInstance (c : Class) : Adds names (Run.newInstance c) := by
  intro m
  have one : m.fields.size ≤ (m.fields.push .empty).size := by
    rw [Array.size_push]
    exact Nat.le_succ _
  exact .of_frames ⟨Nat.le_refl _, one, Nat.le_refl _⟩ rfl rfl

theorem adds_bindMethod (method : Closure) (target : Instance) :
    Adds names (Run.bindMethod method target) :=
  adds_bind (adds_child _ _) fun _ => adds_newClosure _ _ _

theorem adds_property (target : Instance) (name : Token) :
    Adds names (Run.property target name) := by
  apply adds_get
  intro m
  cases (m.fields[target.id]?).bind (·.get? name.lexeme) with
  | some v => exact adds_pure v
  | none =>
    cases target.ofClass.findMethod? name.lexeme with
    | some method => exact adds_bind (adds_bindMethod method target) fun _ => adds_pure _
    | none => exact adds_fail name _

theorem adds_setField (target : Instance) (name : String) (v : Value) :
    Adds names (Run.setField target name v) := by
  intro m
  have same : m.fields.size ≤ (m.fields.modify target.id (·.set name v)).size := by
    rw [Array.size_modify]
  exact .of_frames ⟨Nat.le_refl _, same, Nat.le_refl _⟩ rfl rfl

theorem adds_printLine (keyword : Token) (line : String) :
    Adds names (Run.printLine keyword line) := by
  intro m
  have same : Older m { m with sink := (m.sink.write (line ++ "\n").toUTF8.data).2 } :=
    ⟨Nat.le_refl _, Nat.le_refl _, Nat.le_refl _⟩
  unfold Run.printLine
  by_cases fits : (m.sink.write (line ++ "\n").toUTF8.data).1 = true
  · simp only [fits, if_true]
    exact .of_frames same rfl rfl
  · simp only [fits]
    exact .of_frames same rfl rfl

/-! ### Classes, operators and calls -/

theorem adds_asClass (token : Token) (v : Value) : Adds names (asClass token v) := by
  cases v with
  | classObject c => exact adds_pure c
  | _ => exact adds_fail token _

theorem adds_asInstance (token : Token) (v : Value) : Adds names (asInstance token v) := by
  cases v with
  | object o => exact adds_pure o
  | _ => exact adds_fail token _

theorem adds_methodTable (scope : Scope) : ∀ (methods : List FunctionDecl)
    (table : Bindings Closure), Adds names (methodTable scope methods table)
  | [], _ => adds_pure _
  | method :: rest, _ =>
    adds_bind (adds_newClosure method scope _) fun _ => adds_methodTable scope rest _

theorem adds_methodScope (parent : Option Class) : Adds names (methodScope parent) := by
  cases parent with
  | some c => exact adds_get fun _ => adds_child _ _
  | none => exact adds_get fun _ => adds_pure _

theorem adds_declareClass {name : Token} (mem : name.lexeme ∈ names) (parent : Option Class)
    (methods : List FunctionDecl) : Adds names (declareClass name parent methods) := by
  apply adds_bind (adds_define mem _)
  intro _
  apply adds_bind (adds_methodScope parent)
  intro scope
  apply adds_bind (adds_methodTable scope methods _)
  intro table
  apply adds_bind adds_newIdentity
  intro id
  exact adds_assignIn (fun _ _ found => bound_of_find? found) _

theorem adds_declareFunction {f : FunctionDecl} (mem : f.name.lexeme ∈ names) :
    Adds names (declareFunction f) := by
  apply adds_get
  intro m
  apply adds_bind (adds_newClosure f m.scope false)
  intro closure
  exact adds_define mem _

theorem adds_superMethod (node : NodeId) (keyword method : Token) :
    Adds names (superMethod node keyword method) := by
  apply adds_bind (adds_hopsOf node)
  intro hops
  cases hops with
  | none => exact adds_fail keyword _
  | some distance =>
    apply adds_get
    intro m
    apply adds_bind (adds_readAt _ _ _)
    intro v
    apply adds_bind (adds_asClass keyword v)
    intro parent
    apply adds_bind (adds_readAt _ _ _)
    intro w
    apply adds_bind (adds_asInstance keyword w)
    intro target
    cases parent.findMethod? method.lexeme with
    | some found => exact adds_bind (adds_bindMethod found target) fun _ => adds_pure _
    | none => exact adds_fail method _

theorem YieldsData.adds {x : Run Value} (h : YieldsData x) : Adds names x := by
  intro m
  rcases h m with ⟨v, run, _⟩ | ⟨e, run⟩ <;> rw [run] <;> exact .refl m

theorem adds_checkArity (paren : Token) (expected actual : Nat) :
    Adds names (checkArity paren expected actual) := by
  unfold checkArity
  by_cases same : actual = expected
  · rw [if_pos same]
    exact adds_pure ()
  · rw [if_neg same]
    exact adds_fail paren _

theorem adds_callHost (host : Host) (called : Native) (arguments : List Value)
    (paren : Token) : Adds names (callHost host called arguments paren) := by
  apply adds_bind adds_countHostCall
  intro earlier
  cases host.call called arguments earlier with
  | ok v => exact adds_pure v
  | error message => exact adds_fail paren _

/-! ### The evaluator -/

/-- The names that a statement may give to the innermost frame. In a program that can be read
    no branch and no body of a loop declares anything. -/
def added : Stmt → List String
  | .varDecl name _ => [name.lexeme]
  | .funDecl f => [f.name.lexeme]
  | .classDecl name _ _ => [name.lexeme]
  | .ifElse _ thenBranch none => added thenBranch
  | .ifElse _ thenBranch (some elseBranch) => added thenBranch ++ added elseBranch
  | .whileLoop _ body => added body
  | _ => []

/-- With some fuel, what all computations of the evaluator add. -/
structure AddsAt (host : Host) (fuel : Nat) : Prop where
  evaluate : ∀ e, Adds [] (evaluate host fuel e)
  evaluateAll : ∀ es, Adds [] (evaluateAll host fuel es)
  invoke : ∀ f arguments paren, Adds [] (invoke host fuel f arguments paren)
  enter : ∀ closure arguments paren, Adds [] (enter host fuel closure arguments paren)
  instantiate : ∀ c arguments paren, Adds [] (instantiate host fuel c arguments paren)
  execute : ∀ s, Adds (added s) (execute host fuel s)
  executeAll : ∀ ss, Adds (ss.flatMap added) (executeAll host fuel ss)
  loop : ∀ condition body, Adds (added body) (loop host fuel condition body)

section

variable {host : Host} {fuel : Nat}

theorem adds_evaluate (h : AddsAt host fuel) (e : Expr) :
    Adds [] (evaluate host (fuel + 1) e) := by
  cases e with
  | literal value => exact adds_pure _
  | grouping inner => exact h.evaluate inner
  | unary operator right =>
    apply adds_bind (h.evaluate right)
    intro v
    exact (applyUnary_data operator v).adds
  | binary left operator right =>
    apply adds_bind (h.evaluate left)
    intro v
    apply adds_bind (h.evaluate right)
    intro w
    exact (applyBinary_data operator v w).adds
  | logical left operator right =>
    apply adds_bind (h.evaluate left)
    intro v
    by_cases decided : decides operator v = true
    · rw [if_pos decided]
      exact adds_pure v
    · rw [if_neg decided]
      exact h.evaluate right
  | var node name => exact adds_readVariable node name
  | assign node name value =>
    apply adds_bind (h.evaluate value)
    intro v
    exact adds_bind (adds_assignVariable node name v) fun _ => adds_pure v
  | call callee paren arguments =>
    apply adds_bind (h.evaluate callee)
    intro f
    apply adds_bind (h.evaluateAll arguments)
    intro values
    exact h.invoke f values paren
  | get object name =>
    apply adds_bind (h.evaluate object)
    intro v
    cases v with
    | object target => exact adds_property target name
    | _ => exact adds_fail name _
  | set object name value =>
    apply adds_bind (h.evaluate object)
    intro v
    cases v with
    | object target =>
      apply adds_bind (h.evaluate value)
      intro w
      exact adds_bind (adds_setField target _ w) fun _ => adds_pure w
    | _ => exact adds_fail name _
  | thisRef node keyword => exact adds_readVariable node keyword
  | superRef node keyword method => exact adds_superMethod node keyword method

theorem adds_evaluateAll (h : AddsAt host fuel) (es : List Expr) :
    Adds [] (evaluateAll host (fuel + 1) es) := by
  cases es with
  | nil => exact adds_pure _
  | cons argument rest =>
    apply adds_bind (h.evaluate argument)
    intro v
    exact adds_bind (h.evaluateAll rest) fun _ => adds_pure _

theorem adds_invoke (h : AddsAt host fuel) (f : Value) (arguments : List Value)
    (paren : Token) : Adds [] (invoke host (fuel + 1) f arguments paren) := by
  cases f with
  | function closure =>
    apply adds_bind (adds_checkArity paren _ _)
    intro _
    exact h.enter closure arguments paren
  | native called =>
    apply adds_bind (adds_checkArity paren _ _)
    intro _
    exact adds_callHost host called arguments paren
  | classObject c =>
    apply adds_bind (adds_checkArity paren _ _)
    intro _
    exact h.instantiate c arguments paren
  | _ => exact adds_fail paren _

/-- What the body of a function declares goes into the frame of the call. -/
theorem adds_enter (h : AddsAt host fuel) (closure : Closure) (arguments : List Value)
    (paren : Token) : Adds [] (enter host (fuel + 1) closure arguments paren) := by
  rw [enter, ← bind_assoc]
  apply adds_bind (adds_inside (h.executeAll closure.declaration.body) _ _)
  intro flow
  by_cases initializes : closure.isInitializer = true
  · rw [if_pos initializes]
    exact adds_readAt _ _ _
  · rw [if_neg initializes]
    exact adds_pure _

theorem adds_instantiate (h : AddsAt host fuel) (c : Class) (arguments : List Value)
    (paren : Token) : Adds [] (instantiate host (fuel + 1) c arguments paren) := by
  apply adds_bind (adds_newInstance c)
  intro target
  cases c.initializer? with
  | some initializer =>
    apply adds_bind (adds_bindMethod initializer target)
    intro bound
    exact adds_bind (h.enter bound arguments paren) fun _ => adds_pure _
  | none => exact adds_pure _

theorem adds_execute (h : AddsAt host fuel) (s : Stmt) :
    Adds (added s) (execute host (fuel + 1) s) := by
  cases s with
  | expression value => exact adds_bind (h.evaluate value) fun _ => adds_pure _
  | print keyword value =>
    apply adds_bind (h.evaluate value).quiet
    intro v
    exact adds_bind (adds_printLine keyword v.text) fun _ => adds_pure _
  | varDecl name initializer =>
    have mem : name.lexeme ∈ added (.varDecl name initializer) := by simp [added]
    cases initializer with
    | none => exact adds_bind (adds_define mem _) fun _ => adds_pure _
    | some e =>
      apply adds_bind (h.evaluate e).quiet
      intro v
      exact adds_bind (adds_define mem v) fun _ => adds_pure _
  | block body =>
    apply adds_get
    intro m
    -- what the statements of a block declare goes into a frame of its own
    exact adds_inside (h.executeAll body) m.scope .empty
  | ifElse condition thenBranch elseBranch =>
    -- a branch has no frame of its own, so what it declares is added here
    have left : ∀ name ∈ added thenBranch,
        name ∈ added (.ifElse condition thenBranch elseBranch) := by
      cases elseBranch <;> simp +contextual [added]
    apply adds_bind (h.evaluate condition).quiet
    intro c
    by_cases holds : c.isTruthy = true
    · rw [if_pos holds]
      exact (h.execute thenBranch).widen left
    · rw [if_neg holds]
      cases elseBranch with
      | none => exact adds_pure _
      | some stmt =>
        have right : ∀ name ∈ added stmt,
            name ∈ added (.ifElse condition thenBranch (some stmt)) := by
          simp +contextual [added]
        exact (h.execute stmt).widen right
  | whileLoop condition body =>
    have same : added (.whileLoop condition body) = added body := by rw [added]
    rw [same]
    exact h.loop condition body
  | funDecl f =>
    have mem : f.name.lexeme ∈ added (.funDecl f) := by simp [added]
    exact adds_bind (adds_declareFunction mem) fun _ => adds_pure _
  | ret keyword value =>
    cases value with
    | none => exact adds_pure _
    | some e => exact adds_bind (h.evaluate e).quiet fun _ => adds_pure _
  | classDecl name superclass methods =>
    have mem : name.lexeme ∈ added (.classDecl name superclass methods) := by simp [added]
    cases superclass with
    | none => exact adds_bind (adds_declareClass mem none methods) fun _ => adds_pure _
    | some parent =>
      apply adds_bind (h.evaluate parent).quiet
      intro v
      apply adds_bind (adds_asClass (superclassToken name parent) v)
      intro c
      exact adds_bind (adds_declareClass mem (some c) methods) fun _ => adds_pure _

theorem adds_executeAll (h : AddsAt host fuel) (ss : List Stmt) :
    Adds (ss.flatMap added) (executeAll host (fuel + 1) ss) := by
  cases ss with
  | nil => exact adds_pure _
  | cons s rest =>
    apply adds_bind ((h.execute s).widen (by simp +contextual))
    intro flow
    cases flow with
    | next => exact (h.executeAll rest).widen (by simp +contextual)
    | returned v => exact adds_pure _

/-- What a loop does after its condition has held. -/
theorem adds_round (h : AddsAt host fuel) (condition : Expr) (body : Stmt) :
    Adds (added body) (execute host fuel body >>= fun flow =>
      match flow with
      | .next => loop host fuel condition body
      | .returned value => pure (.returned value)) := by
  apply adds_bind (h.execute body)
  intro flow
  cases flow with
  | next => exact h.loop condition body
  | returned v => exact adds_pure _

theorem adds_loop (h : AddsAt host fuel) (condition : Expr) (body : Stmt) :
    Adds (added body) (loop host (fuel + 1) condition body) := by
  apply adds_bind (h.evaluate condition).quiet
  intro c
  by_cases holds : c.isTruthy = true
  · rw [if_pos holds]
    exact adds_round h condition body
  · rw [if_neg holds]
    exact adds_pure _

theorem addsAt (host : Host) (fuel : Nat) : AddsAt host fuel := by
  -- on the fuel, as every computation is made of others with less of it
  induction fuel with
  | zero =>
    exact ⟨fun _ => adds_throw _, fun _ => adds_throw _, fun _ _ _ => adds_throw _,
      fun _ _ _ => adds_throw _, fun _ _ _ => adds_throw _, fun _ => adds_throw _,
      fun _ => adds_throw _, fun _ _ => adds_throw _⟩
  | succ fuel ih =>
    exact ⟨adds_evaluate ih, adds_evaluateAll ih, adds_invoke ih, adds_enter ih,
      adds_instantiate ih, adds_execute ih, adds_executeAll ih, adds_loop ih⟩

end

theorem adds_interpret (host : Host) (fuel : Nat) (ss : List Stmt) :
    Adds (ss.flatMap added) (interpret host fuel ss) := by
  induction ss with
  | nil => exact adds_pure ()
  | cons s rest ih =>
    apply adds_bind (((addsAt host fuel).execute s).widen (by simp +contextual))
    intro _
    exact ih.widen (by simp +contextual)

end Lox.Evaluation
