import Lox.Proofs.Evaluation.Initializers

/-! # Where a `return` leads

  The statements of a function run one inside the other and one after the other in one
  activation (`Runs`). When a `return` among them has its value, all the statements around it
  end with that value, and none that would come next is run; so does the body, and the call
  yields the value, or the instance if it is an initializer. Conversely a statement ends with a
  value only by a `return` in its own text, functions and methods in it apart. So in a program
  that was accepted, in which every `return` stands in a function, no top-level statement ends
  with a value (`returns_unwind_to_one_call`).
-/

namespace Lox.Evaluation

open Binding

variable {host : Host} {c c' c'' r : Config} {v : Value} {m m' m₁ m₂ : Machine}

/-! ### The `return` statements of a text -/

mutual

/-- The `return` statements in a statement, those in functions and methods apart. -/
def ownReturns : Stmt → List (Token × Option Expr)
  | .ret keyword value => [(keyword, value)]
  | .block body => ownReturnsAll body
  | .ifElse _ thenBranch none => ownReturns thenBranch
  | .ifElse _ thenBranch (some elseBranch) => ownReturns thenBranch ++ ownReturns elseBranch
  | .whileLoop _ body => ownReturns body
  | .expression _ | .print _ _ | .varDecl _ _ | .funDecl _ | .classDecl _ _ _ => []

/-- The `return` statements in statements, those in functions and methods apart. -/
def ownReturnsAll : List Stmt → List (Token × Option Expr)
  | [] => []
  | s :: rest => ownReturns s ++ ownReturnsAll rest

end

theorem ownReturns_subset_all {s : Stmt} {ss : List Stmt} (mem : s ∈ ss) :
    ownReturns s ⊆ ownReturnsAll ss := by
  induction ss with
  | nil => cases mem
  | cons first rest ih =>
    rw [ownReturnsAll]
    rcases List.mem_cons.mp mem with rfl | mem
    · exact List.subset_append_left _ _
    · exact List.Subset.trans (ih mem) (List.subset_append_right _ _)

/-! ### Statements of one activation -/

/-- Whether a call runs statements of the activation that it is made in. -/
def Call.isText : Call → Bool
  | execute _ | executeAll _ | loop _ _ => true
  | _ => false

/-- The `return` statements in the text that a call runs. -/
def Call.returns : Call → List (Token × Option Expr)
  | execute s => ownReturns s
  | executeAll ss => ownReturnsAll ss
  | loop _ body => ownReturns body
  | _ => []

/-- The calls that run statements of the same activation, one inside the other. -/
inductive Runs (host : Host) : Config → Config → Prop where
  | refl (c : Config) : Runs host c c
  | step {c c' c'' : Config} : Calls host c c' → c.call.isText = true →
      c'.call.isText = true → Runs host c' c'' → Runs host c c''

/-- How control leaves a call that runs statements, and the machine that it leaves. -/
def Config.Leaves (host : Host) (c : Config) (flow : Flow) (m : Machine) : Prop :=
  match c.call with
  | .execute s => execute host c.fuel s c.machine = .ok flow m
  | .executeAll ss => executeAll host c.fuel ss c.machine = .ok flow m
  | .loop condition body => loop host c.fuel condition body c.machine = .ok flow m
  | _ => False

theorem Config.Leaves.unique {flow flow' : Flow} (h : c.Leaves host flow m)
    (h' : c.Leaves host flow' m') : flow = flow' ∧ m = m' := by
  obtain ⟨fuel, call, start⟩ := c
  cases call with
  | execute | executeAll | loop =>
    cases h.symm.trans h'
    exact ⟨rfl, rfl⟩
  | _ => exact h.elim

theorem Config.Leaves.isText {flow : Flow} (h : c.Leaves host flow m) :
    c.call.isText = true := by
  obtain ⟨fuel, call, start⟩ := c
  cases call with
  | execute | executeAll | loop => rfl
  | _ => exact h.elim

/-- A call that runs statements is in the same scope at its end. -/
theorem Config.Leaves.scope {flow : Flow} (h : c.Leaves host flow m) :
    m.scope = c.machine.scope := by
  obtain ⟨fuel, call, start⟩ := c
  have adds := addsAt host fuel
  cases call with
  | execute s => exact ((adds.execute s).ok h).scope
  | executeAll ss => exact ((adds.executeAll ss).ok h).scope
  | loop condition body => exact ((adds.loop condition body).ok h).scope
  | _ => exact h.elim

theorem scope_of_evaluate {fuel : Nat} {e : Expr} {v : Value}
    (run : evaluate host fuel e m = .ok v m') : m'.scope = m.scope :=
  (((addsAt host fuel).evaluate e).ok run).scope

/-! ### From a `return` outwards -/

theorem within_ok {α : Type} {scope : Scope} {body : Run α} {a : α}
    (run : body { m with scope } = .ok a m') :
    Run.within scope body m = .ok a { m' with scope := m.scope } := by
  rw [Run.within, run]

theorem ok_of_within {α : Type} {scope : Scope} {body : Run α} {a : α}
    (run : Run.within scope body m = .ok a m') :
    ∃ m₁, body { m with scope } = .ok a m₁ ∧ m' = { m₁ with scope := m.scope } := by
  unfold Run.within at run
  cases inner : body { m with scope } with
  | ok b m₁ =>
    rw [inner] at run
    cases run
    exact ⟨m₁, rfl, rfl⟩
  | error e m₁ =>
    rw [inner] at run
    cases run

/-- A block is left as its statements are, in the scope around it. -/
theorem execute_block {fuel : Nat} {body : List Stmt} {flow : Flow}
    (run : executeAll host fuel body (blockEntry m) = .ok flow m') :
    execute host (fuel + 1) (.block body) m = .ok flow { m' with scope := m.scope } :=
  within_ok (m := { m with frames := (m.frames.child m.scope .empty).2 }) run

/-- A call ends as its body does, unless it is an initializer, in the scope around it. -/
theorem enter_body {fuel : Nat} {closure : Closure} {arguments : List Value} (paren : Token)
    {flow : Flow}
    (run : executeAll host fuel closure.declaration.body (activation closure arguments m) =
      .ok flow m') :
    enter host (fuel + 1) closure arguments paren m =
      (if closure.isInitializer then Run.readAt closure.scope 0 (.synthetic "this" paren.line)
        else pure flow.result) { m' with scope := m.scope } :=
  bind_ok (within_ok (m := { m with
    frames := (m.frames.child closure.scope
      (argumentFrame closure.declaration.params arguments)).2 }) run)

/-- Where a statement of the activation is left with a value, so is the one that runs it. -/
theorem Config.Leaves.outwards (h : c'.Leaves host (.returned v) m') (calls : Calls host c c')
    (text : c.call.isText = true) :
    c.Leaves host (.returned v) { m' with scope := c.machine.scope } := by
  have there := h.isText
  have same := h.scope
  -- only a block is in another scope than its statements
  have unchanged : c'.machine.scope = c.machine.scope →
      { m' with scope := c.machine.scope } = m' := by
    intro here
    rw [← here, ← same]
  cases calls with
  | block => exact execute_block h
  | thenBranch run holds =>
    rw [unchanged (scope_of_evaluate run)]
    exact (bind_ok run).trans ((congrFun (if_pos holds) _).trans h)
  | elseBranch run fails =>
    rw [unchanged (scope_of_evaluate run)]
    have fails' := ne_true_of_eq_false fails
    exact (bind_ok run).trans ((congrFun (if_neg fails') _).trans h)
  | whileLoop =>
    rw [unchanged rfl]
    exact h
  | firstOf =>
    rw [unchanged rfl]
    show executeAll host _ _ _ = _
    rw [executeAll, bind_ok (show execute host _ _ _ = _ from h)]
    rfl
  | restOf run =>
    have here : Config.Leaves host ⟨_, .execute _, _⟩ .next _ := run
    rw [unchanged here.scope]
    show executeAll host _ _ _ = _
    rw [executeAll, bind_ok run]
    exact h
  | loopBody run holds =>
    rw [unchanged (scope_of_evaluate run)]
    show loop host _ _ _ _ = _
    rw [loop, bind_ok run, if_pos holds, bind_ok (show execute host _ _ _ = _ from h)]
    rfl
  | again run holds run' =>
    have here : Config.Leaves host ⟨_, .execute _, _⟩ .next _ := run'
    rw [unchanged (here.scope.trans (scope_of_evaluate run))]
    show loop host _ _ _ _ = _
    rw [loop, bind_ok run, if_pos holds, bind_ok run']
    exact h
  | body => cases text
  | statement => cases text
  | _ => cases there

/-- From a `return` outwards, every statement of the activation is left with its value, on the
    machine that the `return` leaves. -/
theorem Runs.leaves (runs : Runs host c r) (h : r.Leaves host (.returned v) m') :
    c.Leaves host (.returned v) { m' with scope := c.machine.scope } := by
  induction runs with
  | refl c =>
    rw [← h.scope]
    exact h
  | step calls here there _ ih => exact (ih h).outwards calls here

/-! ### From a value inwards -/

/-- Whether a computation never ends with a value. -/
def Passes (x : Run Flow) : Prop :=
  ∀ m v m', x m ≠ .ok (.returned v) m'

theorem passes_next : Passes (pure .next) :=
  fun _ _ _ run => nomatch run

theorem passes_bind {α : Type} {x : Run α} {f : α → Run Flow} (h : ∀ a, Passes (f a)) :
    Passes (x >>= f) := by
  intro m v m' run
  obtain ⟨a, m₁, _, later⟩ := ok_of_bind run
  exact h a m₁ v m' later

/-- Whether a statement holds no others, functions and methods apart, and is no `return`. -/
def isSimple : Stmt → Bool
  | .expression _ | .print _ _ | .varDecl _ _ | .funDecl _ | .classDecl _ _ _ => true
  | _ => false

theorem passes_execute {fuel : Nat} {s : Stmt} (simple : isSimple s = true) :
    Passes (execute host (fuel + 1) s) := by
  cases s with
  | expression value => exact passes_bind fun _ => passes_next
  | print keyword value => exact passes_bind fun v => passes_bind fun _ => passes_next
  | varDecl name initializer =>
    cases initializer with
    | none => exact passes_bind fun _ => passes_next
    | some e => exact passes_bind fun v => passes_bind fun _ => passes_next
  | funDecl f => exact passes_bind fun _ => passes_next
  | classDecl name superclass methods =>
    cases superclass with
    | none => exact passes_bind fun _ => passes_next
    | some parent =>
      exact passes_bind fun v => passes_bind fun c => passes_bind fun _ => passes_next
  | block | ifElse | whileLoop | ret => cases simple

/-- A statement that is left with a value is a `return`, or runs one that is left so. -/
theorem Config.Leaves.inwards (h : c.Leaves host (.returned v) m) :
    (∃ keyword value, c.call = .execute (.ret keyword value)) ∨
    ∃ c' m', Calls host c c' ∧ c'.fuel < c.fuel ∧ c'.Leaves host (.returned v) m' := by
  obtain ⟨fuel, call, start⟩ := c
  cases fuel with
  | zero => cases call <;> cases h
  | succ fuel =>
    cases call with
    | execute s =>
      cases s with
      | ret keyword value => exact .inl ⟨keyword, value, rfl⟩
      | block body =>
        obtain ⟨m₁, run, _⟩ := ok_of_within h
        exact .inr ⟨_, m₁, .block, Nat.lt_succ_self _, run⟩
      | ifElse condition thenBranch elseBranch =>
        obtain ⟨c, m₁, run, chosen⟩ := ok_of_bind h
        by_cases holds : c.isTruthy = true
        · rw [if_pos holds] at chosen
          exact .inr ⟨_, m, .thenBranch run holds, Nat.lt_succ_self _, chosen⟩
        · rw [if_neg holds] at chosen
          cases elseBranch with
          | none => cases chosen
          | some stmt =>
            have fails := eq_false_of_ne_true holds
            exact .inr ⟨_, m, .elseBranch run fails, Nat.lt_succ_self _, chosen⟩
      | whileLoop condition body => exact .inr ⟨_, m, .whileLoop, Nat.lt_succ_self _, h⟩
      -- no other statement passes a value on
      | _ => exact absurd h (passes_execute rfl _ _ _)
    | executeAll ss =>
      cases ss with
      | nil => cases h
      | cons s rest =>
        obtain ⟨flow, m₁, run, later⟩ := ok_of_bind h
        cases flow with
        | next => exact .inr ⟨_, m, .restOf run, Nat.lt_succ_self _, later⟩
        | returned w =>
          cases later
          exact .inr ⟨_, m, .firstOf, Nat.lt_succ_self _, run⟩
    | loop condition body =>
      obtain ⟨c, m₁, run, round⟩ := ok_of_bind h
      by_cases holds : c.isTruthy = true
      · rw [if_pos holds] at round
        obtain ⟨flow, m₂, run', later⟩ := ok_of_bind round
        cases flow with
        | next => exact .inr ⟨_, m, .again run holds run', Nat.lt_succ_self _, later⟩
        | returned w =>
          cases later
          exact .inr ⟨_, m, .loopBody run holds, Nat.lt_succ_self _, run'⟩
      · rw [if_neg holds] at round
        cases round
    | _ => exact h.elim

/-- A call of a `return`. -/
def Config.IsReturn (r : Config) : Prop :=
  ∃ keyword value, r.call = .execute (.ret keyword value)

/-- What leaves a statement with a value is a `return` of its activation. -/
theorem Config.Leaves.source (h : c.Leaves host (.returned v) m) :
    ∃ r m', Runs host c r ∧ r.IsReturn ∧ r.Leaves host (.returned v) m' ∧
      m = { m' with scope := c.machine.scope } := by
  -- on the fuel, of which there is less at each step inwards
  induction hfuel : c.fuel using Nat.strongRecOn generalizing c m with
  | ind fuel ih =>
    rcases h.inwards with here | ⟨c', m', calls, less, h'⟩
    · refine ⟨c, m, .refl c, here, h, ?_⟩
      rw [← h.scope]
    · obtain ⟨r, m₁, runs, isReturn, leaves, _⟩ := ih c'.fuel (hfuel ▸ less) h' rfl
      have whole := Runs.step calls h.isText h'.isText runs
      exact ⟨r, m₁, whole, isReturn, leaves, (h.unique (whole.leaves leaves)).2⟩

/-! ### One `return` at most -/

/-- The text that a statement runs is in its own. -/
theorem Calls.returns_subset (calls : Calls host c c') (text : c.call.isText = true)
    (text' : c'.call.isText = true) : c'.call.returns ⊆ c.call.returns := by
  cases calls with
  | block => exact List.Subset.refl _
  | @thenBranch _ _ _ elseBranch =>
    cases elseBranch with
    | none => exact List.Subset.refl _
    | some stmt => exact List.subset_append_left _ _
  | elseBranch => exact List.subset_append_right _ _
  | whileLoop => exact List.Subset.refl _
  | firstOf => exact List.subset_append_left _ _
  | restOf => exact List.subset_append_right _ _
  | loopBody => exact List.Subset.refl _
  | again => exact List.Subset.refl _
  | body => cases text
  | statement => cases text
  | _ => cases text'

theorem Runs.returns_subset (runs : Runs host c r) : r.call.returns ⊆ c.call.returns := by
  induction runs with
  | refl c => exact List.Subset.refl _
  | step calls here there _ ih => exact List.Subset.trans ih (calls.returns_subset here there)

/-- Whether an activation runs a statement of it, or a round of a loop, and then something
    else. -/
inductive Precedes (host : Host) : Config → Config → Prop where
  | rest {fuel : Nat} {s : Stmt} {rest : List Stmt} {m m' : Machine} :
      execute host fuel s m = .ok .next m' →
      Precedes host ⟨fuel, .execute s, m⟩ ⟨fuel, .executeAll rest, m'⟩
  | round {fuel : Nat} {condition : Expr} {body : Stmt} {m m' : Machine} :
      execute host fuel body m = .ok .next m' →
      Precedes host ⟨fuel, .execute body, m⟩ ⟨fuel, .loop condition body, m'⟩

/-- Of two statements that one runs, of which the second is left with a value, the first
    precedes the second, if they are not the same. -/
theorem Config.Leaves.preceded {c₁ c₂ : Config} (h : c₂.Leaves host (.returned v) m)
    (text : c.call.isText = true) (there : c₁.call.isText = true) (calls : Calls host c c₁)
    (calls' : Calls host c c₂) : c₁ = c₂ ∨ Precedes host c₁ c₂ := by
  have there' := h.isText
  cases calls with
  | block =>
    cases calls' with
    | block => exact .inl rfl
  | thenBranch run holds =>
    cases calls' with
    | condition => cases there'
    | thenBranch run' =>
      cases run.symm.trans run'
      exact .inl rfl
    | elseBranch run' fails =>
      cases run.symm.trans run'
      cases holds.symm.trans fails
  | elseBranch run fails =>
    cases calls' with
    | condition => cases there'
    | thenBranch run' holds =>
      cases run.symm.trans run'
      cases holds.symm.trans fails
    | elseBranch run' =>
      cases run.symm.trans run'
      exact .inl rfl
  | whileLoop =>
    cases calls' with
    | whileLoop => exact .inl rfl
  | firstOf =>
    cases calls' with
    | firstOf => exact .inl rfl
    | restOf run => exact .inr (.rest run)
  | restOf run =>
    cases calls' with
    -- the first statement leaves with a value, so those after it are not executed
    | firstOf => cases (show execute host _ _ _ = _ from h).symm.trans run
    | restOf run' =>
      cases run.symm.trans run'
      exact .inl rfl
  | loopBody run =>
    cases calls' with
    | loopCondition => cases there'
    | loopBody run' =>
      cases run.symm.trans run'
      exact .inl rfl
    | again run' _ next =>
      cases run.symm.trans run'
      exact .inr (.round next)
  | again run _ next =>
    cases calls' with
    | loopCondition => cases there'
    | loopBody run' =>
      cases run.symm.trans run'
      cases (show execute host _ _ _ = _ from h).symm.trans next
    | again run' _ next' =>
      cases run.symm.trans run'
      cases next.symm.trans next'
      exact .inl rfl
  | body => cases text
  | statement => cases text
  | _ => cases there

theorem Config.IsReturn.innermost (h : r.IsReturn) (runs : Runs host r c) : c = r := by
  obtain ⟨fuel, call, m⟩ := r
  obtain ⟨keyword, value, rfl⟩ := h
  cases runs with
  | refl => rfl
  | step calls _ there _ =>
    cases calls
    cases there

/-- What an activation runs that is left by a `return` either has the `return` in it or has
    ended before what has it began. -/
theorem Runs.around_or_before (runs : Runs host c r) (isReturn : r.IsReturn)
    (h : r.Leaves host (.returned v) m) (runs' : Runs host c c') :
    Runs host c' r ∨ ∃ a b, Runs host c a ∧ Runs host a c' ∧ Precedes host a b ∧ Runs host b r := by
  induction runs with
  | refl =>
    rw [isReturn.innermost runs']
    exact .inl (.refl _)
  | step calls here there later ih =>
    cases runs' with
    | refl => exact .inl (.step calls here there later)
    | @step _ c₁ _ calls' _ there' later' =>
      have step := Runs.step calls' here there' (.refl c₁)
      rcases (later.leaves h).preceded here there' calls' calls with same | precedes
      · subst same
        rcases ih isReturn h later' with around | ⟨a, b, before, runs, precedes, after⟩
        · exact .inl around
        · exact .inr ⟨a, b, .step calls here there before, runs, precedes, after⟩
      · exact .inr ⟨c₁, _, step, later', precedes, later⟩

/-- An activation is left by one `return`. -/
theorem Runs.return_unique {r' : Config} {w : Value} (runs : Runs host c r)
    (runs' : Runs host c r') (isReturn : r.IsReturn) (isReturn' : r'.IsReturn)
    (h : r.Leaves host (.returned v) m) (h' : r'.Leaves host (.returned w) m') : r = r' := by
  rcases runs.around_or_before isReturn h runs' with around | ⟨a, b, _, before, precedes, _⟩
  · exact isReturn'.innermost around
  · -- what the other one has left was not left for anything that comes next
    have leaves := before.leaves h'
    cases precedes with
    | rest next => cases (show execute host _ _ _ = _ from leaves).symm.trans next
    | round next => cases (show execute host _ _ _ = _ from leaves).symm.trans next

/-! ### The activation of a `return` -/

/-- The call that runs the body of a function. -/
def bodyCall (fuel : Nat) (closure : Closure) (arguments : List Value) (m : Machine) : Config :=
  ⟨fuel, .executeAll closure.declaration.body, activation closure arguments m⟩

/-- Whether a statement is run by a call without entering a function: in the text of the call,
    or in one of the statements of a program. -/
inductive Outside (host : Host) : Config → Config → Prop where
  | text {c r : Config} : Runs host c r → Outside host c r
  | program {fuel : Nat} {program : List Stmt} {s : Stmt} {m m' : Machine} {r : Config} :
      s ∈ program → Runs host ⟨fuel, .execute s, m'⟩ r →
      Outside host ⟨fuel, .interpret program, m⟩ r

theorem Runs.isText (runs : Runs host c r) (text : r.call.isText = true) :
    c.call.isText = true := by
  cases runs with
  | refl => exact text
  | step _ here => exact here

/-- A statement that is run in the course of a call is in the text of the call, or in the body
    of a function that was entered, with no other one entered in between. -/
theorem Reaches.activation (reached : Reaches host c r) (text : r.call.isText = true) :
    Outside host c r ∨ ∃ n closure arguments paren m,
      Reaches host c ⟨n + 1, .enter closure arguments paren, m⟩ ∧
      Runs host (bodyCall n closure arguments m) r := by
  induction reached with
  | refl c => exact .inl (.text (.refl c))
  | @step c c' r calls _ ih =>
    rcases ih text with outside | ⟨n, closure, arguments, paren, m, reached, runs⟩
    · cases outside with
      | program mem runs =>
        cases calls with
        | statements => exact .inl (.program (List.mem_cons_of_mem _ mem) runs)
      | text runs =>
        have there := runs.isText text
        by_cases here : c.call.isText = true
        · exact .inl (.text (.step calls here there runs))
        · -- a function is entered here, or a statement of the program begins
          cases calls with
          | body => exact .inr ⟨_, _, _, _, _, .refl _, runs⟩
          | statement => exact .inl (.program (List.mem_cons_self ..) runs)
          | block | thenBranch | elseBranch | whileLoop | firstOf | restOf | loopBody | again =>
            exact absurd rfl here
          | _ => cases there
    · exact .inr ⟨n, closure, arguments, paren, m, .step calls reached, runs⟩

/-! ### Programs that were accepted -/

mutual

/-- Outside every function, a text without binding errors has no `return`. -/
theorem ownReturns_eq_nil {context : Context} (outside : context.routine = .outside) :
    ∀ (s : Stmt) (layers : Layers), (inStmt context layers s).errors = [] → ownReturns s = []
  | .ret keyword value, layers, clean => by
    rw [inStmt, outside] at clean
    cases clean
  | .block body, layers, clean => by
    rw [inStmt] at clean
    exact ownReturnsAll_eq_nil outside body _ clean
  | .ifElse condition thenBranch none, layers, clean => by
    rw [inStmt] at clean
    exact ownReturns_eq_nil outside thenBranch _ (List.append_eq_nil_iff.mp clean).2
  | .ifElse condition thenBranch (some elseBranch), layers, clean => by
    rw [inStmt] at clean
    obtain ⟨before, after⟩ := List.append_eq_nil_iff.mp clean
    rw [ownReturns, ownReturns_eq_nil outside thenBranch _ (List.append_eq_nil_iff.mp before).2,
      ownReturns_eq_nil outside elseBranch _ after]
    rfl
  | .whileLoop condition body, layers, clean => by
    rw [inStmt] at clean
    exact ownReturns_eq_nil outside body _ (List.append_eq_nil_iff.mp clean).2
  | .expression _, _, _ => rfl
  | .print _ _, _, _ => rfl
  | .varDecl _ _, _, _ => rfl
  | .funDecl _, _, _ => rfl
  | .classDecl _ _ _, _, _ => rfl

theorem ownReturnsAll_eq_nil {context : Context} (outside : context.routine = .outside) :
    ∀ (ss : List Stmt) (layers : Layers), (inStmts context layers ss).errors = [] →
      ownReturnsAll ss = []
  | [], _, _ => rfl
  | s :: rest, layers, clean => by
    rw [inStmts] at clean
    obtain ⟨first, later⟩ := List.append_eq_nil_iff.mp clean
    rw [ownReturnsAll, ownReturns_eq_nil outside s _ first,
      ownReturnsAll_eq_nil outside rest _ later]
    rfl

end

theorem ownReturns_of_accepted {program : List Stmt} (accepted : (resolve program).errors = [])
    {s : Stmt} (mem : s ∈ program) : ownReturns s = [] := by
  have none : ownReturnsAll program = [] := ownReturnsAll_eq_nil rfl program [] accepted
  exact List.eq_nil_of_subset_nil (none ▸ ownReturns_subset_all mem)

/-! ### What becomes of the value -/

/-- A call of a function comes to what the activation comes to. -/
theorem evaluate_call_function {fuel : Nat} {callee : Expr} {es : List Expr} {closure : Closure}
    {arguments : List Value} (paren : Token)
    (run : evaluate host (fuel + 1) callee m = .ok (.function closure) m₁)
    (run' : evaluateAll host (fuel + 1) es m₁ = .ok arguments m₂)
    (enough : arguments.length = closure.arity) :
    evaluate host (fuel + 2) (.call callee paren es) m =
      enter host fuel closure arguments paren m₂ := by
  have checked : checkArity paren closure.arity arguments.length m₂ = .ok () m₂ :=
    congrFun (if_pos enough) m₂
  rw [evaluate, bind_ok run, bind_ok run', invoke, bind_ok checked]

/-- A call of a class comes to the new instance, once its initializer has ended. -/
theorem evaluate_call_class {fuel : Nat} {callee : Expr} {es : List Expr} {ofClass : Class}
    {arguments : List Value} {paren : Token} {target : Instance} {initializer bound : Closure}
    {m₃ m₄ : Machine} (run : evaluate host (fuel + 2) callee m = .ok (.classObject ofClass) m₁)
    (run' : evaluateAll host (fuel + 2) es m₁ = .ok arguments m₂)
    (enough : arguments.length = ofClass.arity)
    (made : Run.newInstance ofClass m₂ = .ok target m₃)
    (found : ofClass.initializer? = some initializer)
    (binds : Run.bindMethod initializer target m₃ = .ok bound m₄)
    (entered : enter host fuel bound arguments paren m₄ = .ok v m') :
    evaluate host (fuel + 3) (.call callee paren es) m = .ok (.object target) m' := by
  have checked : checkArity paren ofClass.arity arguments.length m₂ = .ok () m₂ :=
    congrFun (if_pos enough) m₂
  rw [evaluate, bind_ok run, bind_ok run', invoke, bind_ok checked, instantiate, bind_ok made,
    found]
  show (Run.bindMethod initializer target >>= _) _ = _
  rw [bind_ok binds, bind_ok entered]
  rfl

/-- What a `return` with a value does to the activation whose text it stands in. -/
structure Unwinds (host : Host) (fuel : Nat) (closure : Closure) (arguments : List Value)
    (paren : Token) (m : Machine) (r : Config) (v : Value) (m' : Machine) : Prop where
  /-- It stands in the text of the function, outside the functions in it. -/
  own : r.call.returns ⊆ ownReturnsAll closure.declaration.body
  /-- No other one leaves the activation. -/
  only : ∀ r' w m'', Runs host (bodyCall fuel closure arguments m) r' → r'.IsReturn →
    r'.Leaves host (.returned w) m'' → r' = r
  /-- All that the activation runs is around it or was over before. -/
  last : ∀ c, Runs host (bodyCall fuel closure arguments m) c → Runs host c r ∨
    ∃ a b, Runs host (bodyCall fuel closure arguments m) a ∧ Runs host a c ∧ Precedes host a b ∧
      Runs host b r
  /-- A function yields the value. -/
  yields : closure.isInitializer = false →
    enter host (fuel + 1) closure arguments paren m = .ok v { m' with scope := m.scope }
  /-- An initializer yields the `this` of its scope. -/
  replaced : closure.isInitializer = true →
    enter host (fuel + 1) closure arguments paren m =
      Run.readAt closure.scope 0 (.synthetic "this" paren.line) { m' with scope := m.scope }

theorem Runs.unwinds {fuel : Nat} {closure : Closure} {arguments : List Value}
    (runs : Runs host (bodyCall fuel closure arguments m) r) (isReturn : r.IsReturn)
    (h : r.Leaves host (.returned v) m') (paren : Token) :
    Unwinds host fuel closure arguments paren m r v m' := by
  have ended : enter host (fuel + 1) closure arguments paren m =
      (if closure.isInitializer then Run.readAt closure.scope 0 (.synthetic "this" paren.line)
        else pure v) { m' with scope := m.scope } := enter_body paren (runs.leaves h)
  refine ⟨runs.returns_subset, ?_, ?_, ?_, ?_⟩
  · intro r' w m'' runs' isReturn' h'
    exact runs'.return_unique runs isReturn' isReturn h' h
  · intro c runs'
    exact runs.around_or_before isReturn h runs'
  · intro ordinary
    rw [ended, if_neg (ne_true_of_eq_false ordinary)]
    rfl
  · intro initializes
    rw [ended, if_pos initializes]

/-- However the body of an initializer ends, it yields the instance that it was bound to. -/
theorem Fits.initializer_ends {L : Ledger} {n : Nat} {closure : Closure} {arguments : List Value}
    {paren : Token} {flow : Flow} (honest : Honest host) (lawful : Lawful L)
    (fit : Fits L host ⟨n + 1, .enter closure arguments paren, m⟩)
    (initializes : closure.isInitializer = true)
    (run : executeAll host n closure.declaration.body (activation closure arguments m) =
      .ok flow m') :
    ∃ made target, L.happened (.bound made target closure) ∧
      enter host (n + 1) closure arguments paren m =
        .ok (.object target) { m' with scope := m.scope } := by
  obtain ⟨made, target, bound⟩ := fit.call.1.bound initializes
  refine ⟨made, target, bound.happened, ?_⟩
  have ended := enter_body paren run
  rw [if_pos initializes, readAt_apply] at ended
  split at ended
  · rw [ended, fit.yields_target honest lawful bound initializes ended]
  · -- an initializer is never without its instance
    have harmless := ((soundAt honest lawful (n + 1)).enter fit).harmless ended
    exact absurd (.inl rfl) harmless

/-- A statement is left with a value only by a `return` in its own text. A `return` that has
    its value and stands in the body of a function, with no other function entered in between,
    unwinds the activation of that function: the call yields the value, or the `this` of an
    initializer, and what made the call goes on with it. In a session, that `this` is the
    instance that the initializer was bound to. A `return` that is run stands in the text that
    is run, or so in the body of a function. No statement of a program without binding errors
    is left with a value, and each `return` that is run in the course of it stands in the body
    of a function. -/
theorem returns_unwind_to_one_call (host : Host) :
    (∀ fuel s m v m', execute host fuel s m = .ok (.returned v) m' →
      ∃ n keyword value m₁ m₂, (keyword, value) ∈ ownReturns s ∧
        Runs host ⟨fuel, .execute s, m⟩ ⟨n, .execute (.ret keyword value), m₁⟩ ∧
        execute host n (.ret keyword value) m₁ = .ok (.returned v) m₂ ∧
        m' = { m₂ with scope := m.scope }) ∧
    (∀ n closure arguments paren m r v m', Runs host (bodyCall n closure arguments m) r →
      r.IsReturn → r.Leaves host (.returned v) m' →
      Unwinds host n closure arguments paren m r v m') ∧
    (∀ n closure arguments paren m v m',
      enter host (n + 1) closure arguments paren m = .ok v m' →
      (∀ callee es m₀ m₁, evaluate host (n + 2) callee m₀ = .ok (.function closure) m₁ →
        evaluateAll host (n + 2) es m₁ = .ok arguments m → arguments.length = closure.arity →
        evaluate host (n + 3) (.call callee paren es) m₀ = .ok v m') ∧
      ∀ callee es ofClass target initializer m₀ m₁ m₂ m₃,
        evaluate host (n + 3) callee m₀ = .ok (.classObject ofClass) m₁ →
        evaluateAll host (n + 3) es m₁ = .ok arguments m₂ → arguments.length = ofClass.arity →
        Run.newInstance ofClass m₂ = .ok target m₃ → ofClass.initializer? = some initializer →
        Run.bindMethod initializer target m₃ = .ok closure m →
        evaluate host (n + 4) (.call callee paren es) m₀ = .ok (.object target) m') ∧
    (∀ s launches source fuel, Honest host → History host s launches →
      (s.prepare source).diagnostics = [] → ∀ n closure arguments paren m flow m',
      Reaches host (launch s fuel source).config ⟨n + 1, .enter closure arguments paren, m⟩ →
      closure.isInitializer = true →
      executeAll host n closure.declaration.body (activation closure arguments m) =
        .ok flow m' →
      ∃ made target,
        Happened host (launch s fuel source :: launches) (.bound made target closure) ∧
        enter host (n + 1) closure arguments paren m =
          .ok (.object target) { m' with scope := m.scope }) ∧
    (∀ c r, Reaches host c r → r.IsReturn → Outside host c r ∨
      ∃ n closure arguments paren m, Reaches host c ⟨n + 1, .enter closure arguments paren, m⟩ ∧
        Runs host (bodyCall n closure arguments m) r) ∧
    ∀ program, (resolve program).errors = [] →
      (∀ s ∈ program, ∀ fuel m v m', execute host fuel s m ≠ .ok (.returned v) m') ∧
      ∀ fuel m r, Reaches host ⟨fuel, .interpret program, m⟩ r → r.IsReturn →
        ∃ n closure arguments paren m',
          Reaches host ⟨fuel, .interpret program, m⟩ ⟨n + 1, .enter closure arguments paren, m'⟩ ∧
          Runs host (bodyCall n closure arguments m') r := by
  refine ⟨?_, ?_, ?_, ?_, ?_, ?_⟩
  · -- a value that a statement passes on comes from a `return` in it
    intro fuel s m v m' run
    have leaves : Config.Leaves host ⟨fuel, .execute s, m⟩ (.returned v) m' := run
    obtain ⟨⟨n, _, m₁⟩, m₂, runs, ⟨keyword, value, rfl⟩, leaves', same⟩ := leaves.source
    exact ⟨n, keyword, value, m₁, m₂, runs.returns_subset (List.mem_singleton_self _), runs,
      leaves', same⟩
  · intro n closure arguments paren m r v m' runs isReturn leaves
    exact runs.unwinds isReturn leaves paren
  · -- the call expression has the value that the call of the closure has
    intro n closure arguments paren m v m' entered
    refine ⟨?_, ?_⟩
    · intro callee es m₀ m₁ run run' enough
      rw [evaluate_call_function paren run run' enough, entered]
    · intro callee es ofClass target initializer m₀ m₁ m₂ m₃ run run' enough made found binds
      exact evaluate_call_class run run' enough made found binds entered
  · -- an initializer has the instance as its value, whatever its body leaves
    intro s launches source fuel honest history accepted n closure arguments paren m flow m'
      reached initializes run
    have settled := history.settled honest
    have lawful : Lawful (ledger host (launch s fuel source :: launches)) :=
      settled.lawful_cons accepted
    have fit := (settled.launch_fits accepted).reach honest lawful reached
    exact fit.initializer_ends honest lawful initializes run
  · rintro c ⟨n, _, m⟩ reached ⟨keyword, value, rfl⟩
    exact reached.activation rfl
  · -- an accepted program has no `return` outside of functions
    intro program accepted
    have none := fun {s} => ownReturns_of_accepted accepted (s := s)
    refine ⟨?_, ?_⟩
    · intro s mem fuel m v m' run
      have leaves : Config.Leaves host ⟨fuel, .execute s, m⟩ (.returned v) m' := run
      obtain ⟨⟨n, _, m₁⟩, m₂, runs, ⟨keyword, value, rfl⟩, _⟩ := leaves.source
      have own : (keyword, value) ∈ ownReturns s :=
        runs.returns_subset (List.mem_singleton_self _)
      rw [none mem] at own
      cases own
    · rintro fuel m ⟨n, _, m₁⟩ reached ⟨keyword, value, rfl⟩
      rcases reached.activation rfl with outside | entered
      · cases outside with
        | text runs => cases runs.isText rfl
        | program mem runs =>
          have own : (keyword, value) ∈ ownReturns _ :=
            runs.returns_subset (List.mem_singleton_self _)
          rw [none mem] at own
          cases own
      · exact entered

/-- The theorem at `fun f() { while (true) { return; } print nil; } f();`, for the call of the
    function and for the statement that makes it. -/
theorem returns_unwind_to_one_call_from_loop :
    let host := Host.standard 0
    let name : Token := ⟨.identifier, "f", 1⟩
    let paren : Token := ⟨.punctuator .rightParen, ")", 1⟩
    let leave := Stmt.ret ⟨.keyword .returnWord, "return", 1⟩ none
    let f : FunctionDecl := ⟨name, [], [.whileLoop (.literal (.bool true)) (.block [leave]),
      .print ⟨.keyword .printWord, "print", 1⟩ (.literal .nil)]⟩
    let call := Stmt.expression (.call (.var 0 name) paren [])
    let closure : Closure := ⟨0, f, [0], false⟩
    let m := Machine.start host .unlimited
    let r : Config := ⟨1, .execute leave, blockEntry (activation closure [] m)⟩
    Runs host (bodyCall 6 closure [] m) r ∧ r.Leaves host (.returned .nil) r.machine ∧
      enter host 7 closure [] paren m = .ok .nil { r.machine with scope := m.scope } ∧
      (resolve [.funDecl f, call]).errors = [] ∧
      ∀ fuel m v m', execute host fuel call m ≠ .ok (.returned v) m' := by
  intro host name paren leave f call closure m r
  have truth : evaluate host 3 (.literal (.bool true)) (activation closure [] m) =
      .ok (.bool true) (activation closure [] m) := rfl
  have runs : Runs host (bodyCall 6 closure [] m) r :=
    .step .firstOf rfl rfl (.step .whileLoop rfl rfl (.step (.loopBody truth rfl) rfl rfl
      (.step .block rfl rfl (.step .firstOf rfl rfl (.refl _)))))
  have isReturn : r.IsReturn := ⟨_, _, rfl⟩
  have leaves : r.Leaves host (.returned .nil) r.machine := by
    show execute host 1 leave r.machine = _
    rfl
  have accepted : (resolve [.funDecl f, call]).errors = [] := by cbv
  obtain ⟨_, unwinds, _, _, _, programs⟩ := returns_unwind_to_one_call host
  have unwound := unwinds 6 closure [] paren m r .nil r.machine runs isReturn leaves
  exact ⟨runs, leaves, unwound.yields rfl, accepted, (programs _ accepted).1 call (by simp)⟩

end Lox.Evaluation
