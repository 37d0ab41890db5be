import Lox.Proofs.Evaluation.Changes
import Lox.Proofs.Evaluation.Sequence

/-! # Calls in turn

  The calls that a call makes, `parts`, are made in turn (`InTurn`): none begins before the one
  that makes them, each has ended when the next begins, and what is there at the end of one of
  them is there at the end of the one that makes it. Between them no field of an instance gets a
  value, and what a call writes itself, it writes after all of them (`parts_in_turn`).
-/

namespace Lox.Evaluation

variable {α β : Type} {host : Host} {fuel : Nat} {m m' m₁ : Machine} {c c' : Config}
  {cs : List Config}

/-! ### Ends of calls -/

/-- The machine that a call leaves behind, however it ends. -/
def Config.after (host : Host) (c : Config) : Machine :=
  match c.call with
  | .evaluate e => machineAfter (evaluate host c.fuel e c.machine)
  | .evaluateAll es => machineAfter (evaluateAll host c.fuel es c.machine)
  | .invoke f arguments paren => machineAfter (invoke host c.fuel f arguments paren c.machine)
  | .enter closure arguments paren =>
    machineAfter (enter host c.fuel closure arguments paren c.machine)
  | .instantiate ofClass arguments paren =>
    machineAfter (instantiate host c.fuel ofClass arguments paren c.machine)
  | .execute s => machineAfter (execute host c.fuel s c.machine)
  | .executeAll ss => machineAfter (executeAll host c.fuel ss c.machine)
  | .loop condition body => machineAfter (loop host c.fuel condition body c.machine)
  | .interpret ss => machineAfter (interpret host c.fuel ss c.machine)

theorem Config.older (host : Host) (c : Config) : Older c.machine (c.after host) := by
  obtain ⟨fuel, call, m⟩ := c
  have adds := addsAt host fuel
  cases call with
  | evaluate e => exact (adds.evaluate e m).toOlder
  | evaluateAll es => exact (adds.evaluateAll es m).toOlder
  | invoke f arguments paren => exact (adds.invoke f arguments paren m).toOlder
  | enter closure arguments paren => exact (adds.enter closure arguments paren m).toOlder
  | instantiate ofClass arguments paren =>
    exact (adds.instantiate ofClass arguments paren m).toOlder
  | execute s => exact (adds.execute s m).toOlder
  | executeAll ss => exact (adds.executeAll ss m).toOlder
  | loop condition body => exact (adds.loop condition body m).toOlder
  | interpret ss => exact (adds_interpret host fuel ss m).toOlder

theorem older_bind (names : List String) {x : Run α} {f : α → Run β}
    (later : ∀ a, Adds names (f a)) (m : Machine) :
    Older (machineAfter (x m)) (machineAfter ((x >>= f) m)) := by
  cases run : x m with
  | ok a m' =>
    rw [bind_ok run]
    exact (later a m').toOlder
  | error e m' =>
    rw [bind_error run]
    exact .refl m'

/-! ### What a call writes itself -/

/-- A value that is written to a field of the instance of an identity. -/
structure Write where
  target : Nat
  name : String
  value : Value

/-- The machine after a write. -/
def afterWrite (m : Machine) (w : Write) : Machine :=
  { m with fields := m.fields.modify w.target (·.set w.name w.value) }

theorem older_afterWrites (log : List Write) (m : Machine) : Older m (log.foldl afterWrite m) := by
  induction log generalizing m with
  | nil => exact .refl m
  | cons w log ih => exact (Change.set w.target w.name w.value).older.trans (ih (afterWrite m w))

/-- What a call writes itself: an assignment to a property does, when its object was an instance
    and its value was had. -/
def ownWrites (host : Host) : Config → List Write
  | ⟨fuel + 1, .evaluate (.set object name value), m⟩ =>
    match evaluate host fuel object m with
    | .ok (.object target) m' =>
      match evaluate host fuel value m' with
      | .ok v _ => [⟨target.id, name.lexeme, v⟩]
      | .error _ _ => []
    | _ => []
  | _ => []

/-! ### One after another -/

/-- Between calls that are made one after another, and before and after them, no field gets a
    value. -/
def Linked (host : Host) (m : Machine) : List Config → Machine → Prop
  | [], m' => SameFields m m'
  | c :: cs, m' => SameFields m c.machine ∧ Linked host (c.after host) cs m'

theorem Linked.append {cs' : List Config} (h : Linked host m cs m₁) (h' : Linked host m₁ cs' m') :
    Linked host m (cs ++ cs') m' := by
  induction cs generalizing m with
  | nil =>
    cases cs' with
    | nil => exact SameFields.trans h h'
    | cons c cs' => exact ⟨SameFields.trans h h'.1, h'.2⟩
  | cons c cs ih => exact ⟨h.1, ih h.2⟩

/-- Calls that are made in turn, from a machine to a later one: they begin after the first machine
    and end before the second, each has ended when the next one begins, and between them no field
    gets a value. -/
structure InTurn (host : Host) (m : Machine) (cs : List Config) (m' : Machine) : Prop where
  linked : Linked host m cs m'
  later : Older m m'
  begins : ∀ c ∈ cs, Older m c.machine
  ends : ∀ c ∈ cs, Older (c.after host) m'
  apart : cs.Pairwise fun c₁ c₂ => Older (c₁.after host) c₂.machine

theorem InTurn.append {cs' : List Config} (h : InTurn host m cs m₁) (h' : InTurn host m₁ cs' m') :
    InTurn host m (cs ++ cs') m' where
  linked := h.linked.append h'.linked
  later := h.later.trans h'.later
  begins := List.forall_mem_append.mpr ⟨h.begins, fun c mem => h.later.trans (h'.begins c mem)⟩
  ends := List.forall_mem_append.mpr ⟨fun c mem => (h.ends c mem).trans h'.later, h'.ends⟩
  apart := List.pairwise_append.mpr ⟨h.apart, h'.apart, fun c₁ mem₁ c₂ mem₂ =>
    (h.ends c₁ mem₁).trans (h'.begins c₂ mem₂)⟩

theorem inTurn_nil (later : Older m m') (same : SameFields m m') : InTurn host m [] m' :=
  ⟨same, later, fun _ no => (List.not_mem_nil no).elim, fun _ no => (List.not_mem_nil no).elim,
    .nil⟩

theorem inTurn_quiet {x : Run α} (quiet : Quiet x) : InTurn host m [] (machineAfter (x m)) :=
  inTurn_nil (quiet.proceeds m).older (quiet.sameFields m)

theorem inTurn_call (host : Host) (c : Config) : InTurn host c.machine [c] (c.after host) where
  linked := ⟨.refl _, .refl _⟩
  later := c.older host
  begins := List.forall_mem_singleton.mpr (.refl _)
  ends := List.forall_mem_singleton.mpr (.refl _)
  apart := List.pairwise_singleton _ c

/-- What comes after a computation has calls of its own. -/
theorem inTurn_bind {x : Run α} {f : α → Run β} {next : α → Machine → List Config}
    (first : InTurn host m cs (machineAfter (x m)))
    (second : ∀ a m', x m = .ok a m' → InTurn host m' (next a m') (machineAfter (f a m'))) :
    InTurn host m (cs ++ onward (x m) next) (machineAfter ((x >>= f) m)) := by
  cases run : x m with
  | ok a m' =>
    rw [run] at first
    rw [bind_ok run]
    exact first.append (second a m' run)
  | error e m' =>
    rw [run] at first
    rw [bind_error run, onward_error, List.append_nil]
    exact first

/-- A computation without calls, and what comes after it. -/
theorem inTurn_after {x : Run α} {f : α → Run β} {next : α → Machine → List Config}
    (first : Quiet x)
    (second : ∀ a m', x m = .ok a m' → InTurn host m' (next a m') (machineAfter (f a m'))) :
    InTurn host m (onward (x m) next) (machineAfter ((x >>= f) m)) := by
  have start : InTurn host m [] (machineAfter (x m)) := inTurn_quiet first
  exact inTurn_bind start second

/-- What comes after a computation makes no calls. -/
theorem inTurn_last {x : Run α} {f : α → Run β} (first : InTurn host m cs (machineAfter (x m)))
    (second : ∀ a, Quiet (f a)) : InTurn host m cs (machineAfter ((x >>= f) m)) := by
  have both : InTurn host m (cs ++ onward (x m) fun _ _ => []) (machineAfter ((x >>= f) m)) :=
    inTurn_bind first fun a m' _ => inTurn_quiet (second a)
  have none : onward (x m) (fun _ _ => []) = [] := by cases x m <;> rfl
  rw [none, List.append_nil] at both
  exact both

/-- A computation in another scope makes the calls that it makes there. -/
theorem inTurn_within {body : Run α} (scope : Scope)
    (inside : InTurn host { m with scope } cs (machineAfter (body { m with scope }))) :
    InTurn host m cs (machineAfter (Run.within scope body m)) := by
  rw [machineAfter_within]
  have enters : InTurn host m [] { m with scope } :=
    inTurn_nil (Change.moved scope).older fun _ _ => rfl
  have leaves : InTurn host (machineAfter (body { m with scope })) []
      { machineAfter (body { m with scope }) with scope := m.scope } :=
    inTurn_nil (Change.moved m.scope).older fun _ _ => rfl
  have whole := (enters.append inside).append leaves
  rw [List.append_nil] at whole
  exact whole

theorem inTurn_expression (e : Expr) (m : Machine) :
    InTurn host m [⟨fuel, .evaluate e, m⟩] (machineAfter (evaluate host fuel e m)) :=
  inTurn_call host ⟨fuel, .evaluate e, m⟩

theorem inTurn_statement (s : Stmt) (m : Machine) :
    InTurn host m [⟨fuel, .execute s, m⟩] (machineAfter (execute host fuel s m)) :=
  inTurn_call host ⟨fuel, .execute s, m⟩

theorem inTurn_execute (s : Stmt) :
    InTurn host m (executeParts host fuel m s) (machineAfter (execute host (fuel + 1) s m)) := by
  cases s with
  | expression value => exact inTurn_last (inTurn_expression value m) fun _ => quiet_pure _
  | print keyword value =>
    exact inTurn_last (inTurn_expression value m) fun v =>
      quiet_bind (quiet_printLine keyword _) fun _ => quiet_pure _
  | varDecl name initializer =>
    cases initializer with
    | none => exact inTurn_quiet (quiet_bind (quiet_define _ _) fun _ => quiet_pure _)
    | some e =>
      exact inTurn_last (inTurn_expression e m) fun v =>
        quiet_bind (quiet_define _ v) fun _ => quiet_pure _
  | block body =>
    -- the frame of the block is there before the scope is changed
    let m₁ : Machine := { m with frames := (m.frames.child m.scope .empty).2 }
    have opens : InTurn host m [] m₁ := inTurn_nil (Change.opened .empty).older fun _ _ => rfl
    have inside : InTurn host m₁ _ _ := inTurn_within (m.frames.records.size :: m.scope)
      (inTurn_call host ⟨fuel, .executeAll body, blockEntry m⟩)
    exact opens.append inside
  | ifElse condition thenBranch elseBranch =>
    apply inTurn_bind (inTurn_expression condition m)
    intro v m' _
    split
    · exact inTurn_call host ⟨fuel, .execute thenBranch, m'⟩
    · cases elseBranch with
      | none => exact inTurn_quiet (quiet_pure _)
      | some stmt => exact inTurn_call host ⟨fuel, .execute stmt, m'⟩
  | whileLoop condition body => exact inTurn_call host ⟨fuel, .loop condition body, m⟩
  | funDecl f => exact inTurn_quiet (quiet_bind (quiet_declareFunction f) fun _ => quiet_pure _)
  | ret keyword value =>
    cases value with
    | none => exact inTurn_quiet (quiet_pure _)
    | some e => exact inTurn_last (inTurn_expression e m) fun _ => quiet_pure _
  | classDecl name superclass methods =>
    cases superclass with
    | none =>
      exact inTurn_quiet (quiet_bind (quiet_declareClass name none methods) fun _ => quiet_pure _)
    | some parent =>
      exact inTurn_last (inTurn_expression parent m) fun v =>
        quiet_bind (quiet_asClass _ v) fun c =>
          quiet_bind (quiet_declareClass name (some c) methods) fun _ => quiet_pure _

theorem inTurn_evaluateAll (es : List Expr) :
    InTurn host m (parts host ⟨fuel + 1, .evaluateAll es, m⟩)
      (machineAfter (evaluateAll host (fuel + 1) es m)) := by
  cases es with
  | nil => exact inTurn_quiet (quiet_pure _)
  | cons argument rest =>
    apply inTurn_bind (inTurn_expression argument m)
    intro v m' _
    exact inTurn_last (inTurn_call host ⟨fuel, .evaluateAll rest, m'⟩) fun _ => quiet_pure _

theorem inTurn_invoke (f : Value) (arguments : List Value) (paren : Token) :
    InTurn host m (parts host ⟨fuel + 1, .invoke f arguments paren, m⟩)
      (machineAfter (invoke host (fuel + 1) f arguments paren m)) := by
  cases f with
  | function closure =>
    rw [parts, invoke, checkArity]
    split
    · exact inTurn_call host ⟨fuel, .enter closure arguments paren, m⟩
    · exact inTurn_quiet (quiet_fail paren _)
  | classObject c =>
    rw [parts, invoke, checkArity]
    split
    · exact inTurn_call host ⟨fuel, .instantiate c arguments paren, m⟩
    · exact inTurn_quiet (quiet_fail paren _)
  | native called =>
    exact inTurn_quiet (quiet_bind (quiet_checkArity paren _ _) fun _ =>
      quiet_callHost host called arguments paren)
  | _ => exact inTurn_quiet (quiet_fail paren _)

theorem inTurn_enter (closure : Closure) (arguments : List Value) (paren : Token) :
    InTurn host m (parts host ⟨fuel + 1, .enter closure arguments paren, m⟩)
      (machineAfter (enter host (fuel + 1) closure arguments paren m)) := by
  -- the frame for the arguments is there before the scope is changed
  let m₁ : Machine :=
    { m with frames := (m.frames.child closure.scope
        (argumentFrame closure.declaration.params arguments)).2 }
  have opens : InTurn host m [] m₁ := inTurn_nil (Change.opened _).older fun _ _ => rfl
  have inside : InTurn host m₁ _ _ := inTurn_within (m.frames.records.size :: closure.scope)
    (inTurn_call host
      ⟨fuel, .executeAll closure.declaration.body, activation closure arguments m⟩)
  refine opens.append (inTurn_last inside fun flow => ?_)
  split
  · exact quiet_readAt _ _ _
  · exact quiet_pure _

theorem inTurn_instantiate (c : Class) (arguments : List Value) (paren : Token) :
    InTurn host m (parts host ⟨fuel + 1, .instantiate c arguments paren, m⟩)
      (machineAfter (instantiate host (fuel + 1) c arguments paren m)) := by
  rw [parts, instantiate]
  apply inTurn_after (quiet_newInstance c)
  intro target m' _
  cases c.initializer? with
  | none => exact inTurn_quiet (quiet_pure _)
  | some initializer =>
    apply inTurn_after (quiet_bindMethod initializer target)
    intro bound m'' _
    exact inTurn_last (inTurn_call host ⟨fuel, .enter bound arguments paren, m''⟩)
      fun _ => quiet_pure _

theorem inTurn_executeAll (ss : List Stmt) :
    InTurn host m (parts host ⟨fuel + 1, .executeAll ss, m⟩)
      (machineAfter (executeAll host (fuel + 1) ss m)) := by
  cases ss with
  | nil => exact inTurn_quiet (quiet_pure _)
  | cons s rest =>
    apply inTurn_bind (inTurn_statement s m)
    intro flow m' _
    cases flow with
    | next => exact inTurn_call host ⟨fuel, .executeAll rest, m'⟩
    | returned v => exact inTurn_quiet (quiet_pure _)

theorem inTurn_loop (condition : Expr) (body : Stmt) :
    InTurn host m (parts host ⟨fuel + 1, .loop condition body, m⟩)
      (machineAfter (loop host (fuel + 1) condition body m)) := by
  apply inTurn_bind (inTurn_expression condition m)
  intro c m' _
  split
  · apply inTurn_bind (inTurn_statement body m')
    intro flow m'' _
    cases flow with
    | next => exact inTurn_call host ⟨fuel, .loop condition body, m''⟩
    | returned v => exact inTurn_quiet (quiet_pure _)
  · exact inTurn_quiet (quiet_pure _)

theorem inTurn_interpret (ss : List Stmt) :
    InTurn host m (parts host ⟨fuel, .interpret ss, m⟩)
      (machineAfter (interpret host fuel ss m)) := by
  cases ss with
  | nil => cases fuel <;> exact inTurn_quiet (quiet_pure _)
  | cons s rest =>
    have both : InTurn host m (executing host fuel s m fun _ m' => [⟨fuel, .interpret rest, m'⟩])
        (machineAfter (interpret host fuel (s :: rest) m)) := by
      apply inTurn_bind (inTurn_statement s m)
      intro flow m' _
      exact inTurn_call host ⟨fuel, .interpret rest, m'⟩
    cases fuel <;> exact both

/-- An assignment to a property writes last, after its parts. -/
theorem inTurn_set (object value : Expr) (name : Token) :
    ∃ m', InTurn host m (evaluateParts host fuel m (.set object name value)) m' ∧
      machineAfter (evaluate host (fuel + 1) (.set object name value) m) =
        (ownWrites host ⟨fuel + 1, .evaluate (.set object name value), m⟩).foldl afterWrite m' := by
  have first : InTurn host m [⟨fuel, .evaluate object, m⟩] _ := inTurn_expression object m
  rw [evaluateParts, evaluating, ownWrites, evaluate]
  cases run : evaluate host fuel object m with
  | error e m₁ =>
    rw [run] at first
    rw [bind_error run]
    exact ⟨m₁, first, rfl⟩
  | ok v m₁ =>
    rw [run] at first
    rw [bind_ok run]
    cases v with
    | object target =>
      have second : InTurn host m₁ [⟨fuel, .evaluate value, m₁⟩] _ :=
        inTurn_expression value m₁
      dsimp only [onward_ok]
      cases run' : evaluate host fuel value m₁ with
      | error e m₂ =>
        rw [run'] at second
        rw [bind_error run']
        exact ⟨m₂, first.append second, rfl⟩
      | ok w m₂ =>
        rw [run'] at second
        rw [bind_ok run']
        -- both parts have ended when the field gets its value
        exact ⟨m₂, first.append second, rfl⟩
    | _ => exact ⟨m₁, first, rfl⟩

/-- The parts of an expression are made in turn, and then it writes what it writes itself. -/
theorem inTurn_evaluate (e : Expr) :
    ∃ m', InTurn host m (evaluateParts host fuel m e) m' ∧
      machineAfter (evaluate host (fuel + 1) e m) =
        (ownWrites host ⟨fuel + 1, .evaluate e, m⟩).foldl afterWrite m' := by
  cases e with
  | literal value => exact ⟨_, inTurn_quiet (quiet_pure _), rfl⟩
  | grouping inner => exact ⟨_, inTurn_expression inner m, rfl⟩
  | unary operator right =>
    refine ⟨_, inTurn_last (inTurn_expression right m) ?_, rfl⟩
    exact fun v => (applyUnary_data operator v).quiet
  | binary left operator right =>
    refine ⟨_, inTurn_bind (inTurn_expression left m) ?_, rfl⟩
    intro a m' _
    exact inTurn_last (inTurn_expression right m') fun b => (applyBinary_data operator a b).quiet
  | logical left operator right =>
    refine ⟨_, inTurn_bind (inTurn_expression left m) ?_, rfl⟩
    intro a m' _
    split
    · exact inTurn_quiet (quiet_pure a)
    · exact inTurn_expression right m'
  | var node name => exact ⟨_, inTurn_quiet (quiet_readVariable node name), rfl⟩
  | assign node name value =>
    refine ⟨_, inTurn_last (inTurn_expression value m) ?_, rfl⟩
    exact fun v => quiet_bind (quiet_assignVariable node name v) fun _ => quiet_pure v
  | call callee paren arguments =>
    refine ⟨_, inTurn_bind (inTurn_expression callee m) ?_, rfl⟩
    intro f m' _
    apply inTurn_bind (inTurn_call host ⟨fuel, .evaluateAll arguments, m'⟩)
    intro values m'' _
    exact inTurn_call host ⟨fuel, .invoke f values paren, m''⟩
  | get object name =>
    refine ⟨_, inTurn_last (inTurn_expression object m) fun v => ?_, rfl⟩
    cases v with
    | object target => exact quiet_property target name
    | _ => exact quiet_fail name _
  | set object name value => exact inTurn_set object value name
  | thisRef node keyword => exact ⟨_, inTurn_quiet (quiet_readVariable node keyword), rfl⟩
  | superRef node keyword method =>
    exact ⟨_, inTurn_quiet (quiet_superMethod node keyword method), rfl⟩

/-- The parts of a call are made in turn from its machine to the one it leaves, but for what it
    writes itself at the end. -/
theorem parts_in_turn (host : Host) (c : Config) :
    ∃ m', InTurn host c.machine (parts host c) m' ∧
      c.after host = (ownWrites host c).foldl afterWrite m' := by
  obtain ⟨fuel, call, m⟩ := c
  cases fuel with
  | zero =>
    -- all but a program stops at once
    cases call with
    | interpret ss => exact ⟨_, inTurn_interpret ss, rfl⟩
    | _ => exact ⟨m, inTurn_nil (.refl m) (.refl m), rfl⟩
  | succ fuel =>
    cases call with
    | evaluate e => exact inTurn_evaluate e
    | evaluateAll es => exact ⟨_, inTurn_evaluateAll es, rfl⟩
    | invoke f arguments paren => exact ⟨_, inTurn_invoke f arguments paren, rfl⟩
    | enter closure arguments paren => exact ⟨_, inTurn_enter closure arguments paren, rfl⟩
    | instantiate c arguments paren => exact ⟨_, inTurn_instantiate c arguments paren, rfl⟩
    | execute s => exact ⟨_, inTurn_execute s, rfl⟩
    | executeAll ss => exact ⟨_, inTurn_executeAll ss, rfl⟩
    | loop condition body => exact ⟨_, inTurn_loop condition body, rfl⟩
    | interpret ss => exact ⟨_, inTurn_interpret ss, rfl⟩

end Lox.Evaluation
