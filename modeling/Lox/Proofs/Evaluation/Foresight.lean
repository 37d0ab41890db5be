import Lox.Proofs.Evaluation.Operations

/-! # What is known of a run before it ends

  A run depends on the fuel it is given and on what the host answers, and it uses both from the
  front: what it does with little fuel, and with few answers, it does with more of them, unless
  it was cut short for want of them (`Foretells`). The relation is kept when computations are put
  together, and so it holds of the evaluator step by step (`foretellsAt`), for two hosts of which
  the second one may answer where the first one fails (`Foresees`).
-/

namespace Lox.Evaluation

variable {α β : Type} {n : Nat} {host host' : Host} {fuel fuel' : Nat}

/-- Whether a computation was cut short: it used up its fuel, or it failed after more than so
    many calls of the host. -/
def CutShort (n : Nat) : EStateM.Result Halt Machine α → Prop
  | .error .starved _ => True
  | .error (.fault _) m => n < m.hostCalls
  | .ok _ _ => False

/-- Whether a computation does what another one does, wherever that one is not cut short. -/
def Foretells (n : Nat) (x y : Run α) : Prop :=
  ∀ m, CutShort n (x m) ∨ y m = x m

/-- Whether a host answers as another one does in the first calls, and fails in a later one
    unless it answers as the other one does. -/
def Foresees (n : Nat) (host host' : Host) : Prop :=
  ∀ called arguments earlier,
    host'.call called arguments earlier = host.call called arguments earlier ∨
    n ≤ earlier ∧ ∃ message, host.call called arguments earlier = .error message

theorem Foresees.refl (n : Nat) (host : Host) : Foresees n host host :=
  fun _ _ _ => .inl rfl

/-! ### Putting computations together -/

section

variable {x y : Run α}

theorem Foretells.refl (x : Run α) : Foretells n x x :=
  fun _ => .inr rfl

theorem foretells_starved (y : Run α) : Foretells n (throw .starved) y :=
  fun _ => .inl trivial

/-- Only what stops is cut short, and what follows stops there, too. -/
theorem CutShort.cases {r : EStateM.Result Halt Machine α} (h : CutShort n r) :
    ∃ e m, r = .error e m ∧ CutShort n (.error e m : EStateM.Result Halt Machine β) := by
  cases r with
  | ok a m => exact h.elim
  | error e m =>
    cases e with
    | starved => exact ⟨_, m, rfl, trivial⟩
    | fault e => exact ⟨_, m, rfl, h⟩

theorem CutShort.rescope {e : Halt} {m : Machine} {scope : Scope}
    (h : CutShort n (.error e m : EStateM.Result Halt Machine α)) :
    CutShort n (.error e { m with scope } : EStateM.Result Halt Machine α) := by
  cases e with
  | starved => trivial
  | fault e => exact h

theorem foretells_bind {f g : α → Run β} (first : Foretells n x y)
    (second : ∀ a, Foretells n (f a) (g a)) : Foretells n (x >>= f) (y >>= g) := by
  intro m
  rcases first m with short | same
  · obtain ⟨e, m₁, run, short⟩ := short.cases
    rw [bind_error run]
    exact .inl short
  · cases run : x m with
    | ok a m₁ =>
      rw [run] at same
      rw [bind_ok run, bind_ok same]
      exact second a m₁
    | error e m₁ =>
      rw [run] at same
      rw [bind_error run, bind_error same]
      exact .inr rfl

theorem foretells_then {f : α → Run β} (first : Foretells n x y) :
    Foretells n (x >>= f) (y >>= f) :=
  foretells_bind first fun a => .refl (f a)

theorem foretells_within {scope : Scope} (h : Foretells n x y) :
    Foretells n (Run.within scope x) (Run.within scope y) := by
  intro m
  unfold Run.within
  rcases h { m with scope } with short | same
  · obtain ⟨e, m₁, run, short⟩ := short.cases
    rw [run]
    exact .inl short.rescope
  · rw [same]
    exact .inr rfl

end

/-- The call in which nothing more is known of the host is counted before it fails. -/
theorem foretells_callHost (foresees : Foresees n host host') (called : Native)
    (arguments : List Value) (paren : Token) :
    Foretells n (callHost host called arguments paren)
      (callHost host' called arguments paren) := by
  intro m
  have counted : Run.countHostCall m =
      .ok m.hostCalls { m with hostCalls := m.hostCalls + 1 } := rfl
  unfold callHost
  rw [bind_ok counted, bind_ok counted]
  rcases foresees called arguments m.hostCalls with same | ⟨beyond, message, failed⟩
  · rw [same]
    exact .inr rfl
  · rw [failed]
    exact .inl (Nat.lt_succ_of_le beyond)

/-! ### The evaluator -/

/-- What the evaluator does with some fuel and one host foretells what it does with other fuel
    and another host. -/
structure ForetellsAt (n : Nat) (host host' : Host) (fuel fuel' : Nat) : Prop where
  evaluate : ∀ e, Foretells n (evaluate host fuel e) (evaluate host' fuel' e)
  evaluateAll : ∀ es, Foretells n (evaluateAll host fuel es) (evaluateAll host' fuel' es)
  invoke : ∀ f vs p, Foretells n (invoke host fuel f vs p) (invoke host' fuel' f vs p)
  enter : ∀ c vs p, Foretells n (enter host fuel c vs p) (enter host' fuel' c vs p)
  instantiate : ∀ c vs p,
    Foretells n (instantiate host fuel c vs p) (instantiate host' fuel' c vs p)
  execute : ∀ s, Foretells n (execute host fuel s) (execute host' fuel' s)
  executeAll : ∀ ss, Foretells n (executeAll host fuel ss) (executeAll host' fuel' ss)
  loop : ∀ e s, Foretells n (loop host fuel e s) (loop host' fuel' e s)

section

variable (ih : ForetellsAt n host host' fuel fuel')
include ih

theorem foretells_evaluate (e : Expr) :
    Foretells n (evaluate host (fuel + 1) e) (evaluate host' (fuel' + 1) e) := by
  cases e with
  | literal | var | thisRef | superRef => exact .refl _
  | grouping inner => exact ih.evaluate inner
  | unary operator right =>
    rw [evaluate, evaluate]
    exact foretells_then (ih.evaluate right)
  | binary left operator right =>
    rw [evaluate, evaluate]
    apply foretells_bind (ih.evaluate left)
    intro a
    exact foretells_then (ih.evaluate right)
  | logical left operator right =>
    rw [evaluate, evaluate]
    apply foretells_bind (ih.evaluate left)
    intro a
    split
    · exact .refl _
    · exact ih.evaluate right
  | assign node name value =>
    rw [evaluate, evaluate]
    exact foretells_then (ih.evaluate value)
  | call callee paren arguments =>
    rw [evaluate, evaluate]
    apply foretells_bind (ih.evaluate callee)
    intro f
    apply foretells_bind (ih.evaluateAll arguments)
    intro values
    exact ih.invoke f values paren
  | get object name =>
    rw [evaluate, evaluate]
    exact foretells_then (ih.evaluate object)
  | set object name value =>
    rw [evaluate, evaluate]
    apply foretells_bind (ih.evaluate object)
    intro v
    cases v with
    | object target => exact foretells_then (ih.evaluate value)
    | _ => exact .refl _

theorem foretells_evaluateAll (es : List Expr) :
    Foretells n (evaluateAll host (fuel + 1) es) (evaluateAll host' (fuel' + 1) es) := by
  cases es with
  | nil => exact .refl _
  | cons e rest =>
    rw [evaluateAll, evaluateAll]
    apply foretells_bind (ih.evaluate e)
    intro value
    exact foretells_then (ih.evaluateAll rest)

theorem foretells_invoke (foresees : Foresees n host host') (f : Value) (vs : List Value)
    (p : Token) :
    Foretells n (invoke host (fuel + 1) f vs p) (invoke host' (fuel' + 1) f vs p) := by
  cases f with
  | function closure => exact foretells_bind (.refl _) fun _ => ih.enter closure vs p
  | native called => exact foretells_bind (.refl _) fun _ => foretells_callHost foresees called vs p
  | classObject c => exact foretells_bind (.refl _) fun _ => ih.instantiate c vs p
  | _ => exact .refl _

theorem foretells_enter (c : Closure) (vs : List Value) (p : Token) :
    Foretells n (enter host (fuel + 1) c vs p) (enter host' (fuel' + 1) c vs p) := by
  rw [enter, enter]
  apply foretells_bind (.refl _)
  intro scope
  exact foretells_then (foretells_within (ih.executeAll c.declaration.body))

theorem foretells_instantiate (c : Class) (vs : List Value) (p : Token) :
    Foretells n (instantiate host (fuel + 1) c vs p) (instantiate host' (fuel' + 1) c vs p) := by
  rw [instantiate, instantiate]
  apply foretells_bind (.refl _)
  intro target
  cases c.initializer? with
  | none => exact .refl _
  | some initializer =>
    apply foretells_bind (.refl _)
    intro bound
    exact foretells_then (ih.enter bound vs p)

theorem foretells_execute (s : Stmt) :
    Foretells n (execute host (fuel + 1) s) (execute host' (fuel' + 1) s) := by
  cases s with
  | expression value =>
    rw [execute, execute]
    exact foretells_then (ih.evaluate value)
  | print keyword value =>
    rw [execute, execute]
    exact foretells_then (ih.evaluate value)
  | varDecl name initializer =>
    cases initializer with
    | none => exact .refl _
    | some value =>
      rw [execute, execute]
      exact foretells_then (ih.evaluate value)
  | block body =>
    rw [execute, execute]
    apply foretells_bind (.refl _)
    intro m
    apply foretells_bind (.refl _)
    intro scope
    exact foretells_within (ih.executeAll body)
  | ifElse condition thenBranch elseBranch =>
    apply foretells_bind (ih.evaluate condition)
    intro c
    split
    · exact ih.execute thenBranch
    · cases elseBranch with
      | none => exact .refl _
      | some s => exact ih.execute s
  | whileLoop condition body => exact ih.loop condition body
  | funDecl f => exact .refl _
  | ret keyword value =>
    cases value with
    | none => exact .refl _
    | some value =>
      rw [execute, execute]
      exact foretells_then (ih.evaluate value)
  | classDecl name superclass methods =>
    cases superclass with
    | none => exact .refl _
    | some parent =>
      rw [execute, execute]
      exact foretells_then (ih.evaluate parent)

theorem foretells_executeAll (ss : List Stmt) :
    Foretells n (executeAll host (fuel + 1) ss) (executeAll host' (fuel' + 1) ss) := by
  cases ss with
  | nil => exact .refl _
  | cons s rest =>
    rw [executeAll, executeAll]
    apply foretells_bind (ih.execute s)
    intro flow
    cases flow with
    | next => exact ih.executeAll rest
    | returned value => exact .refl _

theorem foretells_loop (e : Expr) (s : Stmt) :
    Foretells n (loop host (fuel + 1) e s) (loop host' (fuel' + 1) e s) := by
  rw [loop, loop]
  apply foretells_bind (ih.evaluate e)
  intro c
  split
  · apply foretells_bind (ih.execute s)
    intro flow
    cases flow with
    | next => exact ih.loop e s
    | returned value => exact .refl _
  · exact .refl _

end

theorem foretellsAt (foresees : Foresees n host host') {fuel fuel' : Nat} (more : fuel ≤ fuel') :
    ForetellsAt n host host' fuel fuel' := by
  -- on the fuel: what takes one more unit itself hands one more on to all it calls
  induction fuel generalizing fuel' with
  | zero =>
    exact ⟨fun _ => foretells_starved _, fun _ => foretells_starved _,
      fun _ _ _ => foretells_starved _, fun _ _ _ => foretells_starved _,
      fun _ _ _ => foretells_starved _, fun _ => foretells_starved _,
      fun _ => foretells_starved _, fun _ _ => foretells_starved _⟩
  | succ fuel ih =>
    cases fuel' with
    | zero => exact absurd more (Nat.not_succ_le_zero fuel)
    | succ fuel' =>
      have ih := ih (Nat.le_of_succ_le_succ more)
      exact ⟨foretells_evaluate ih, foretells_evaluateAll ih, foretells_invoke ih foresees,
        foretells_enter ih, foretells_instantiate ih, foretells_execute ih,
        foretells_executeAll ih, foretells_loop ih⟩

theorem foretells_interpret (foresees : Foresees n host host') {fuel fuel' : Nat}
    (more : fuel ≤ fuel') (program : List Stmt) :
    Foretells n (interpret host fuel program) (interpret host' fuel' program) := by
  induction program with
  | nil => exact .refl _
  | cons s rest ih => exact foretells_bind ((foretellsAt foresees more).execute s) fun _ => ih

end Lox.Evaluation
