import Lox.Proofs.Evaluation.Holdings

/-! # Runs keep to their beginnings

  A call is anchored when its machine holds all its values, those that it works on among them,
  and the links that are made from it on are recorded. An anchored call makes only anchored
  calls (`Anchored.step`) and leaves a machine that holds its values (`steadyAt`), whatever
  program is run, in whichever tree it is given.
-/

namespace Lox.Evaluation

variable {host : Host} {m m' m'' : Machine} {R : Records}

/-! ### Calls -/

/-- What a call works on is held by the machine. -/
def OperandsHeld (R : Records) (m : Machine) : Call → Prop
  | .invoke f arguments _ => Held R m f ∧ ∀ v ∈ arguments, Held R m v
  | .enter closure arguments _ => ScopeHeld R m closure.scope ∧ ∀ v ∈ arguments, Held R m v
  | .instantiate c arguments _ => ClassHeld R m c ∧ ∀ v ∈ arguments, Held R m v
  | _ => True

/-- A call on a machine that holds its values, and the records have the links that are made
    from it on. -/
structure Anchored (R : Records) (host : Host) (c : Config) : Prop where
  store : StoreHeld R c.machine
  scope : ScopeHeld R c.machine c.machine.scope
  operands : OperandsHeld R c.machine c.call
  nested : ∀ c' frame outer, Reaches host c c' → Nests host c' frame outer →
    R.nested frame outer
  built : ∀ c' parent built, Reaches host c c' → Builds host c' parent built →
    R.built parent built

section

variable {c c' : Config} {fuel : Nat}

theorem Anchored.into (h : Anchored R host c) (calls : Calls host c c')
    (store : StoreHeld R c'.machine) (scope : ScopeHeld R c'.machine c'.machine.scope)
    (operands : OperandsHeld R c'.machine c'.call) : Anchored R host c' :=
  ⟨store, scope, operands,
    fun c'' frame outer reached => h.nested c'' frame outer (.step calls reached),
    fun c'' parent built reached => h.built c'' parent built (.step calls reached)⟩

/-- A call made on the machine that others have left. -/
theorem Anchored.onto (h : Anchored R host c) (calls : Calls host c c')
    (stays : Stays R c.machine c'.machine) (operands : OperandsHeld R c'.machine c'.call) :
    Anchored R host c' :=
  h.into calls stays.store (stays.scopeHeld h.scope) operands

theorem Anchored.opens (h : Anchored R host c) {frame : FrameId} {outer : Scope}
    (nests : Nests host c frame outer) : R.nested frame outer :=
  h.nested c frame outer (.refl c) nests

theorem Anchored.builds (h : Anchored R host c) {parent : Option Class} {built : Class}
    (builds : Builds host c parent built) : R.built parent built :=
  h.built c parent built (.refl c) builds

/-- What is known of the way control leaves a statement. -/
def FlowHeld (R : Records) (m : Machine) : Flow → Prop
  | .next => True
  | .returned v => Held R m v

theorem FlowHeld.rescope {flow : Flow} (h : FlowHeld R m flow) (scope : Scope) :
    FlowHeld R { m with scope } flow := by
  have same : Older m { m with scope } := ⟨Nat.le_refl _, Nat.le_refl _, Nat.le_refl _⟩
  cases flow with
  | next => trivial
  | returned v => exact Held.later h same

theorem FlowHeld.result {flow : Flow} (h : FlowHeld R m flow) : Held R m flow.result := by
  cases flow with
  | next => trivial
  | returned v => exact h

/-- With some fuel, calls leave machines that hold their values. -/
structure SteadyAt (R : Records) (host : Host) (fuel : Nat) : Prop where
  evaluate : ∀ {e m}, Anchored R host ⟨fuel, .evaluate e, m⟩ →
    Steady R m (evaluate host fuel e) fun v m' => Held R m' v
  evaluateAll : ∀ {es m}, Anchored R host ⟨fuel, .evaluateAll es, m⟩ →
    Steady R m (evaluateAll host fuel es) fun vs m' => ∀ v ∈ vs, Held R m' v
  invoke : ∀ {f arguments paren m}, Anchored R host ⟨fuel, .invoke f arguments paren, m⟩ →
    Steady R m (invoke host fuel f arguments paren) fun v m' => Held R m' v
  enter : ∀ {closure arguments paren m},
    Anchored R host ⟨fuel, .enter closure arguments paren, m⟩ →
    Steady R m (enter host fuel closure arguments paren) fun v m' => Held R m' v
  instantiate : ∀ {c arguments paren m},
    Anchored R host ⟨fuel, .instantiate c arguments paren, m⟩ →
    Steady R m (instantiate host fuel c arguments paren) fun v m' => Held R m' v
  execute : ∀ {s m}, Anchored R host ⟨fuel, .execute s, m⟩ →
    Steady R m (execute host fuel s) fun flow m' => FlowHeld R m' flow
  executeAll : ∀ {ss m}, Anchored R host ⟨fuel, .executeAll ss, m⟩ →
    Steady R m (executeAll host fuel ss) fun flow m' => FlowHeld R m' flow
  loop : ∀ {condition body m}, Anchored R host ⟨fuel, .loop condition body, m⟩ →
    Steady R m (loop host fuel condition body) fun flow m' => FlowHeld R m' flow

/-! ### One step -/

/-- A frame for the names of a call. -/
theorem Anchored.body {closure : Closure} {arguments : List Value} {paren : Token}
    (h : Anchored R host ⟨fuel + 1, .enter closure arguments paren, m⟩) :
    Anchored R host
      ⟨fuel, .executeAll closure.declaration.body, activation closure arguments m⟩ := by
  obtain ⟨scope, values⟩ : ScopeHeld R m closure.scope ∧ ∀ v ∈ arguments, Held R m v := h.operands
  have store : StoreHeld R (activation closure arguments m) :=
    h.store.child (fun _ _ found => argumentFrame_held values found) rfl rfl (Nat.le_refl _)
  exact h.into .body store (scope.child (h.opens .routine) rfl) trivial

/-- A frame for the names of a block. -/
theorem Anchored.block {body : List Stmt}
    (h : Anchored R host ⟨fuel + 1, .execute (.block body), m⟩) :
    Anchored R host ⟨fuel, .executeAll body, blockEntry m⟩ := by
  have store : StoreHeld R (blockEntry m) := h.store.child held_empty rfl rfl (Nat.le_refl _)
  exact h.into .block store (h.scope.child (h.opens .block) rfl) trivial

/-- The initializer of a new instance is bound to it. -/
theorem Anchored.initializer {ofClass : Class} {arguments : List Value} {paren : Token}
    {initializer bound : Closure} {target : Instance}
    (h : Anchored R host ⟨fuel + 1, .instantiate ofClass arguments paren, m⟩)
    (made : Run.newInstance ofClass m = .ok target m')
    (found : ofClass.initializer? = some initializer)
    (binding : Run.bindMethod initializer target m' = .ok bound m'') :
    Anchored R host ⟨fuel, .enter bound arguments paren, m''⟩ := by
  obtain ⟨held, values⟩ : ClassHeld R m ofClass ∧ ∀ v ∈ arguments, Held R m v := h.operands
  obtain ⟨stays, rfl, drawn, frames⟩ := (steady_newInstance h.store ofClass).ok made
  have nested : R.nested m'.frames.records.size initializer.scope := by
    rw [frames]
    exact h.opens (.boundInitializer found)
  have held' := held.later stays.older
  obtain ⟨stays', scope⟩ := (steady_bindMethod stays.store (held'.findMethod found)
    ⟨drawn, held'⟩ nested).ok binding
  have both := stays.trans stays'
  exact h.onto (.initializer made found binding) both
    ⟨scope, fun v hv => (values v hv).later both.older⟩

/-- A call that is anchored makes only calls that are. -/
theorem Anchored.step (h : Anchored R host c) (calls : Calls host c c')
    (steady : SteadyAt R host c'.fuel) : Anchored R host c' := by
  have first : ∀ {e m}, Calls host c ⟨c'.fuel, .evaluate e, m⟩ → Stays R c.machine m →
      ∀ {v m'}, evaluate host c'.fuel e m = .ok v m' → Stays R c.machine m' ∧ Held R m' v := by
    intro e m calls stays v m' run
    obtain ⟨stays', held⟩ := (steady.evaluate (h.onto calls stays trivial)).ok run
    exact ⟨stays.trans stays', held⟩
  have same : Stays R c.machine c.machine := .refl h.store
  -- calls that come after others are made on the machine that those have left
  cases calls with
  | binaryRight run => exact h.onto (.binaryRight run) (first .binaryLeft same run).1 trivial
  | logicalRight run undecided =>
    exact h.onto (.logicalRight run undecided) (first .logicalLeft same run).1 trivial
  | arguments run => exact h.onto (.arguments run) (first .callee same run).1 trivial
  | invoke run run' =>
    obtain ⟨stays, held⟩ := first .callee same run
    obtain ⟨stays', values⟩ :=
      (steady.evaluateAll (h.onto (.arguments run) stays trivial)).ok run'
    exact h.onto (.invoke run run') (stays.trans stays') ⟨held.later stays'.older, values⟩
  | setValue run => exact h.onto (.setValue run) (first .setObject same run).1 trivial
  | others run => exact h.onto (.others run) (first .first same run).1 trivial
  | function enough => exact h.onto (.function enough) same h.operands
  | classObject enough => exact h.onto (.classObject enough) same h.operands
  | body => exact h.body
  | initializer made found binding => exact h.initializer made found binding
  | block => exact h.block
  | thenBranch run holds =>
    exact h.onto (.thenBranch run holds) (first .condition same run).1 trivial
  | elseBranch run fails =>
    exact h.onto (.elseBranch run fails) (first .condition same run).1 trivial
  | restOf run =>
    obtain ⟨stays, _⟩ := (steady.execute (h.onto .firstOf same trivial)).ok run
    exact h.onto (.restOf run) stays trivial
  | loopBody run holds =>
    exact h.onto (.loopBody run holds) (first .loopCondition same run).1 trivial
  | again run holds run' =>
    obtain ⟨stays, _⟩ := first .loopCondition same run
    obtain ⟨stays', _⟩ := (steady.execute (h.onto (.loopBody run holds) stays trivial)).ok run'
    exact h.onto (.again run holds run') (stays.trans stays') trivial
  | statements run =>
    obtain ⟨stays, _⟩ := (steady.execute (h.onto .statement same trivial)).ok run
    exact h.onto (.statements run) stays trivial
  | grouping => exact h.onto .grouping same trivial
  | unary => exact h.onto .unary same trivial
  | binaryLeft => exact h.onto .binaryLeft same trivial
  | logicalLeft => exact h.onto .logicalLeft same trivial
  | assigned => exact h.onto .assigned same trivial
  | callee => exact h.onto .callee same trivial
  | got => exact h.onto .got same trivial
  | setObject => exact h.onto .setObject same trivial
  | first => exact h.onto .first same trivial
  | expression => exact h.onto .expression same trivial
  | printed => exact h.onto .printed same trivial
  | declared => exact h.onto .declared same trivial
  | condition => exact h.onto .condition same trivial
  | whileLoop => exact h.onto .whileLoop same trivial
  | returned => exact h.onto .returned same trivial
  | superclass => exact h.onto .superclass same trivial
  | firstOf => exact h.onto .firstOf same trivial
  | loopCondition => exact h.onto .loopCondition same trivial
  | statement => exact h.onto .statement same trivial

/-! ### Whole runs -/

theorem steady_evaluate (steady : SteadyAt R host fuel) {e : Expr}
    (h : Anchored R host ⟨fuel + 1, .evaluate e, m⟩) :
    Steady R m (evaluate host (fuel + 1) e) fun v m' => Held R m' v := by
  -- a part is evaluated in a call that is anchored like the whole
  have into : ∀ {e' m'}, Calls host ⟨fuel + 1, .evaluate e, m⟩ ⟨fuel, .evaluate e', m'⟩ →
      Steady R m' (evaluate host fuel e') fun v m'' => Held R m'' v :=
    fun calls => steady.evaluate (h.step calls steady)
  cases e with
  | literal value =>
    apply steady_pure h.store
    cases value <;> trivial
  | grouping inner => exact into .grouping
  | unary operator right =>
    rw [evaluate]
    apply steady_bind (into .unary)
    intro v m' _ stays _
    exact (applyUnary_data operator v).steady stays.store
  | binary left operator right =>
    rw [evaluate]
    apply steady_bind (into .binaryLeft)
    intro a m' run _ _
    apply steady_bind (into (.binaryRight run))
    intro b m'' _ stays' _
    exact (applyBinary_data operator a b).steady stays'.store
  | logical left operator right =>
    rw [evaluate]
    apply steady_bind (into .logicalLeft)
    intro a m' run stays held
    by_cases decided : decides operator a = true
    · rw [if_pos decided]
      exact steady_pure stays.store held
    · rw [if_neg decided]
      exact into (.logicalRight run (Bool.eq_false_iff.mpr decided))
  | var node name => exact steady_readVariable h.store node name
  | assign node name value =>
    rw [evaluate]
    apply steady_bind (into .assigned)
    intro v m' _ stays held
    apply steady_bind (steady_assignVariable stays.store node name held)
    intro _ m'' _ stays' _
    exact steady_pure stays'.store (held.later stays'.older)
  | call callee paren arguments =>
    rw [evaluate]
    apply steady_bind (into .callee)
    intro f m' run _ _
    apply steady_bind (steady.evaluateAll (h.step (.arguments run) steady))
    intro values m'' run' _ _
    exact steady.invoke (h.step (.invoke run run') steady)
  | get object name =>
    rw [evaluate]
    apply steady_bind (into .got)
    intro v m' run stays held
    cases v with
    | object target =>
      exact steady_property stays.store held name
        fun method field found => h.opens (.boundProperty run field found)
    | _ => exact steady_fail stays.store name _
  | set object name value =>
    rw [evaluate]
    apply steady_bind (into .setObject)
    intro v m' run stays _
    cases v with
    | object target =>
      apply steady_bind (into (.setValue run))
      intro w m'' _ stays' held
      apply steady_bind (steady_setField stays'.store target name.lexeme held)
      intro _ m₃ _ stays₃ _
      exact steady_pure stays₃.store (held.later stays₃.older)
    | _ => exact steady_fail stays.store name _
  | thisRef node keyword => exact steady_readVariable h.store node keyword
  | superRef node keyword method =>
    apply steady_superMethod h.store
    intro d parent target found noted super this own
    have run := superMethod_found noted super this method
    rw [own] at run
    exact h.opens (.boundSuper run rfl)

theorem steady_evaluateAll (steady : SteadyAt R host fuel) {es : List Expr}
    (h : Anchored R host ⟨fuel + 1, .evaluateAll es, m⟩) :
    Steady R m (evaluateAll host (fuel + 1) es) fun vs m' => ∀ v ∈ vs, Held R m' v := by
  cases es with
  | nil => exact steady_pure h.store (List.forall_mem_nil _)
  | cons argument rest =>
    rw [evaluateAll]
    apply steady_bind (steady.evaluate (h.step .first steady))
    intro v m' run _ held
    apply steady_bind (steady.evaluateAll (h.step (.others run) steady))
    intro vs m'' _ stays' values
    apply steady_pure stays'.store
    intro w hw
    rcases List.mem_cons.mp hw with rfl | hw
    · exact held.later stays'.older
    · exact values w hw

theorem steady_invoke (confined : Confined host) (steady : SteadyAt R host fuel) {f : Value}
    {arguments : List Value} {paren : Token}
    (h : Anchored R host ⟨fuel + 1, .invoke f arguments paren, m⟩) :
    Steady R m (invoke host (fuel + 1) f arguments paren) fun v m' => Held R m' v := by
  cases f with
  | function closure =>
    rw [invoke]
    apply steady_bind (steady_checkArity h.store paren closure.arity arguments.length)
    rintro _ _ _ _ ⟨rfl, enough⟩
    exact steady.enter (h.step (.function enough) steady)
  | native called =>
    rw [invoke]
    apply steady_bind (steady_checkArity h.store paren called.arity arguments.length)
    rintro _ _ _ _ ⟨rfl, _⟩
    exact steady_callHost confined h.store called h.operands.2 paren
  | classObject c =>
    rw [invoke]
    apply steady_bind (steady_checkArity h.store paren c.arity arguments.length)
    rintro _ _ _ _ ⟨rfl, enough⟩
    exact steady.instantiate (h.step (.classObject enough) steady)
  | _ => exact steady_fail h.store paren _

theorem steady_enter (steady : SteadyAt R host fuel) {closure : Closure}
    {arguments : List Value} {paren : Token}
    (h : Anchored R host ⟨fuel + 1, .enter closure arguments paren, m⟩) :
    Steady R m (enter host (fuel + 1) closure arguments paren) fun v m' => Held R m' v := by
  have values : ∀ v ∈ arguments, Held R m v := h.operands.2
  rw [enter]
  have opening : Steady R m (Run.child closure.scope
      (argumentFrame closure.declaration.params arguments)) fun scope m' =>
      { m' with scope } = activation closure arguments m := by
    refine .of_ok rfl ⟨rfl, ?_, ?_⟩ rfl
    · exact older_child rfl rfl rfl
    · exact h.store.child (fun _ _ found => argumentFrame_held values found) rfl rfl
        (Nat.le_refl _)
  apply steady_bind opening
  intro scope m₁ _ _ same
  have body := steady.executeAll (h.step .body steady)
  rw [← same] at body
  apply steady_bind (steady_within body fun flow m' here held => held.rescope here)
  intro flow m₂ _ stays₂ held
  -- what an initializer gives comes from a frame, and is held as all that is there
  by_cases initializes : closure.isInitializer = true
  · rw [if_pos initializes]
    apply (steady_readAt stays₂.store _ _ _).weaken
    rintro v _ ⟨rfl, found⟩
    exact stays₂.store.getAt found
  · rw [if_neg initializes]
    exact steady_pure stays₂.store held.result

theorem steady_instantiate (steady : SteadyAt R host fuel) {c : Class}
    {arguments : List Value} {paren : Token}
    (h : Anchored R host ⟨fuel + 1, .instantiate c arguments paren, m⟩) :
    Steady R m (instantiate host (fuel + 1) c arguments paren) fun v m' => Held R m' v := by
  have held : ClassHeld R m c := h.operands.1
  rw [instantiate]
  apply steady_bind (steady_newInstance h.store c)
  rintro target m₁ made stays₁ ⟨rfl, drawn, frames⟩
  have held₁ := held.later stays₁.older
  cases found : c.initializer? with
  | none => exact steady_pure stays₁.store ⟨drawn, held₁⟩
  | some initializer =>
    -- making the instance opens no frame, so that the next one is that of its `this`
    have nested : R.nested m₁.frames.records.size initializer.scope := by
      rw [frames]
      exact h.opens (.boundInitializer found)
    apply steady_bind (steady_bindMethod stays₁.store (held₁.findMethod found) ⟨drawn, held₁⟩
      nested)
    intro bound m₂ binding stays₂ _
    apply steady_bind (steady.enter (h.step (.initializer made found binding) steady))
    intro _ m₃ _ stays₃ _
    have later := (stays₂.trans stays₃).older
    exact steady_pure stays₃.store ⟨Nat.lt_of_lt_of_le drawn later.fields, held₁.later later⟩

/-- Of the branches only the one that is taken is executed. -/
theorem steady_ifElse (steady : SteadyAt R host fuel) {condition : Expr} {thenBranch : Stmt}
    {elseBranch : Option Stmt}
    (h : Anchored R host ⟨fuel + 1, .execute (.ifElse condition thenBranch elseBranch), m⟩) :
    Steady R m (execute host (fuel + 1) (.ifElse condition thenBranch elseBranch))
      fun flow m' => FlowHeld R m' flow := by
  apply steady_bind (steady.evaluate (h.step .condition steady))
  intro c m' run stays _
  by_cases holds : c.isTruthy = true
  · rw [if_pos holds]
    exact steady.execute (h.step (.thenBranch run holds) steady)
  · rw [if_neg holds]
    cases elseBranch with
    | none => exact steady_pure stays.store trivial
    | some stmt =>
      have fails := Bool.eq_false_iff.mpr holds
      exact steady.execute (h.step (.elseBranch run fails) steady)

/-- A superclass is evaluated first, and then the class is declared in the same frame. -/
theorem steady_classDecl (steady : SteadyAt R host fuel) {name : Token} {superclass : Option Expr}
    {methods : List FunctionDecl}
    (h : Anchored R host ⟨fuel + 1, .execute (.classDecl name superclass methods), m⟩) :
    Steady R m (execute host (fuel + 1) (.classDecl name superclass methods))
      fun flow m' => FlowHeld R m' flow := by
  cases superclass with
  | none =>
    have declaring : Steady R m (declareClass name none methods) fun _ _ => True := by
      refine steady_declareClass h.store h.scope name methods nofun nofun ?_
      exact fun c m' run named => h.builds ⟨_, _, _, does_declared_base run named⟩
    rw [execute]
    apply steady_bind declaring
    intro _ m' _ stays _
    exact steady_pure stays.store trivial
  | some parent =>
    rw [execute]
    apply steady_bind (steady.evaluate (h.step .superclass steady))
    intro v m₁ run stays₁ held
    apply steady_bind (steady_asClass stays₁.store (superclassToken name parent) v)
    rintro c m₂ _ _ ⟨rfl, rfl⟩
    have above : ∀ c', some c = some c' → ClassHeld R m₂ c' := by
      rintro _ ⟨⟩
      exact held
    apply steady_bind (steady_declareClass stays₁.store (stays₁.scopeHeld h.scope) name methods
      above (fun _ => h.opens (.superLayer run))
      fun built m' run' named => h.builds ⟨_, _, _, does_declared_derived run run' named⟩)
    intro _ m'' _ stays _
    exact steady_pure stays.store trivial

theorem steady_execute (steady : SteadyAt R host fuel) {s : Stmt}
    (h : Anchored R host ⟨fuel + 1, .execute s, m⟩) :
    Steady R m (execute host (fuel + 1) s) fun flow m' => FlowHeld R m' flow := by
  have into : ∀ {e}, Calls host ⟨fuel + 1, .execute s, m⟩ ⟨fuel, .evaluate e, m⟩ →
      Steady R m (evaluate host fuel e) fun v m' => Held R m' v :=
    fun calls => steady.evaluate (h.step calls steady)
  cases s with
  | expression value =>
    rw [execute]
    apply steady_bind (into .expression)
    intro _ m' _ stays _
    exact steady_pure stays.store trivial
  | print keyword value =>
    rw [execute]
    apply steady_bind (into .printed)
    intro v m' _ stays _
    apply steady_bind (steady_printLine stays.store keyword v.text)
    intro _ m'' _ stays' _
    exact steady_pure stays'.store trivial
  | varDecl name initializer =>
    cases initializer with
    | none =>
      have nothing : Held R m .nil := trivial
      rw [execute]
      apply steady_bind (steady_define h.store name.lexeme nothing)
      intro _ m' _ stays _
      exact steady_pure stays.store trivial
    | some e =>
      rw [execute]
      apply steady_bind (into .declared)
      intro v m' _ stays held
      apply steady_bind (steady_define stays.store name.lexeme held)
      intro _ m'' _ stays' _
      exact steady_pure stays'.store trivial
  | block body =>
    rw [execute]
    apply steady_get
    -- the frame of the block is opened first, and its statements are executed from there
    have opening : Steady R m (Run.child m.scope .empty) fun scope m' =>
        { m' with scope } = blockEntry m := by
      refine .of_ok rfl ⟨rfl, ?_, ?_⟩ rfl
      · exact older_child rfl rfl rfl
      · exact h.store.child held_empty rfl rfl (Nat.le_refl _)
    apply steady_bind opening
    intro scope m₁ _ _ same
    have inside := steady.executeAll (h.step .block steady)
    rw [← same] at inside
    exact steady_within inside fun flow m' here held => held.rescope here
  | ifElse condition thenBranch elseBranch => exact steady_ifElse steady h
  | whileLoop condition body =>
    rw [execute]
    exact steady.loop (h.step .whileLoop steady)
  | funDecl f =>
    rw [execute]
    apply steady_bind (steady_declareFunction h.store h.scope f)
    intro _ m' _ stays _
    exact steady_pure stays.store trivial
  | ret keyword value =>
    cases value with
    | none => exact steady_pure h.store trivial
    | some e =>
      rw [execute]
      apply steady_bind (into .returned)
      intro v m' _ stays held
      exact steady_pure stays.store held
  | classDecl name superclass methods => exact steady_classDecl steady h

theorem steady_executeAll (steady : SteadyAt R host fuel) {ss : List Stmt}
    (h : Anchored R host ⟨fuel + 1, .executeAll ss, m⟩) :
    Steady R m (executeAll host (fuel + 1) ss) fun flow m' => FlowHeld R m' flow := by
  cases ss with
  | nil => exact steady_pure h.store trivial
  | cons s rest =>
    rw [executeAll]
    apply steady_bind (steady.execute (h.step .firstOf steady))
    intro flow m' run stays held
    cases flow with
    | next => exact steady.executeAll (h.step (.restOf run) steady)
    | returned v => exact steady_pure stays.store held

theorem steady_loop (steady : SteadyAt R host fuel) {condition : Expr} {body : Stmt}
    (h : Anchored R host ⟨fuel + 1, .loop condition body, m⟩) :
    Steady R m (loop host (fuel + 1) condition body) fun flow m' => FlowHeld R m' flow := by
  rw [loop]
  apply steady_bind (steady.evaluate (h.step .loopCondition steady))
  intro c m' run stays _
  by_cases holds : c.isTruthy = true
  · rw [if_pos holds]
    apply steady_bind (steady.execute (h.step (.loopBody run holds) steady))
    intro flow m'' run' stays' held
    cases flow with
    | next => exact steady.loop (h.step (.again run holds run') steady)
    | returned v => exact steady_pure stays'.store held
  · rw [if_neg holds]
    exact steady_pure stays.store trivial

/-- Calls leave machines that hold their values, whatever the fuel. -/
theorem steadyAt (confined : Confined host) (fuel : Nat) : SteadyAt R host fuel := by
  -- on the fuel: every call is made with less of it, also the body of a function
  induction fuel with
  | zero =>
    exact ⟨fun h => steady_throw h.store _, fun h => steady_throw h.store _,
      fun h => steady_throw h.store _, fun h => steady_throw h.store _,
      fun h => steady_throw h.store _, fun h => steady_throw h.store _,
      fun h => steady_throw h.store _, fun h => steady_throw h.store _⟩
  | succ fuel ih =>
    exact ⟨steady_evaluate ih, steady_evaluateAll ih, steady_invoke confined ih, steady_enter ih,
      steady_instantiate ih, steady_execute ih, steady_executeAll ih, steady_loop ih⟩

end

/-- Running a program leaves a machine that holds its values. -/
theorem steady_interpret (confined : Confined host) {fuel : Nat} :
    ∀ {ss : List Stmt} {m : Machine}, Anchored R host ⟨fuel, .interpret ss, m⟩ →
      Steady R m (interpret host fuel ss) fun _ _ => True
  | [], m, h => steady_pure h.store trivial
  | s :: rest, m, h => by
    have steady : SteadyAt R host fuel := steadyAt confined fuel
    rw [interpret]
    apply steady_bind (steady.execute (h.step .statement steady))
    intro flow m' run _ _
    exact steady_interpret confined (h.step (.statements run) steady)

/-- Every call in the course of a run is anchored, if the first one is. -/
theorem Anchored.reach (confined : Confined host) {c c' : Config} (reached : Reaches host c c')
    (h : Anchored R host c) : Anchored R host c' := by
  induction reached with
  | refl => exact h
  | step calls _ ih => exact ih (h.step calls (steadyAt confined _))

end Lox.Evaluation
