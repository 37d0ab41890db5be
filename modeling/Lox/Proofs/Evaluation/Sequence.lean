import Lox.Proofs.Evaluation.Calls

/-! # Calls in order

  `Calls` says which calls a call makes, and `parts` lists them in the order in which they are
  made. A call is made with less fuel than the one that makes it, or with fewer statements left
  of a program (`calls_depth`), so that what happens in the course of a call can be listed by
  recursion on its parts.
-/

namespace Lox.Evaluation

variable {α : Type} {host : Host} {fuel : Nat} {m : Machine} {c c' : Config}

/-! ### One call and those after it -/

/-- The calls after a computation that ended well. -/
def onward (result : EStateM.Result Halt Machine α) (next : α → Machine → List Config) :
    List Config :=
  match result with
  | .ok a m => next a m
  | .error _ _ => []

/-- Evaluating an expression, and what comes after it. -/
def evaluating (host : Host) (fuel : Nat) (e : Expr) (m : Machine)
    (next : Value → Machine → List Config) : List Config :=
  ⟨fuel, .evaluate e, m⟩ :: onward (evaluate host fuel e m) next

/-- Executing a statement, and what comes after it. -/
def executing (host : Host) (fuel : Nat) (s : Stmt) (m : Machine)
    (next : Flow → Machine → List Config) : List Config :=
  ⟨fuel, .execute s, m⟩ :: onward (execute host fuel s m) next

@[simp] theorem onward_ok {a : α} {next : α → Machine → List Config} :
    onward (.ok a m) next = next a m := rfl

@[simp] theorem onward_error {e : Halt} {next : α → Machine → List Config} :
    onward (.error e m) next = [] := rfl

@[simp] theorem mem_onward {result : EStateM.Result Halt Machine α}
    {next : α → Machine → List Config} :
    c ∈ onward result next ↔ ∃ a m, result = .ok a m ∧ c ∈ next a m := by
  cases result with
  | ok a m =>
    refine ⟨fun mem => ⟨a, m, rfl, mem⟩, ?_⟩
    rintro ⟨_, _, ⟨⟩, mem⟩
    exact mem
  | error e m => simp

@[simp] theorem mem_evaluating {e : Expr} {next : Value → Machine → List Config} :
    c ∈ evaluating host fuel e m next ↔ c = ⟨fuel, .evaluate e, m⟩ ∨
      ∃ v m', evaluate host fuel e m = .ok v m' ∧ c ∈ next v m' := by
  rw [evaluating, List.mem_cons, mem_onward]

@[simp] theorem mem_executing {s : Stmt} {next : Flow → Machine → List Config} :
    c ∈ executing host fuel s m next ↔ c = ⟨fuel, .execute s, m⟩ ∨
      ∃ flow m', execute host fuel s m = .ok flow m' ∧ c ∈ next flow m' := by
  rw [executing, List.mem_cons, mem_onward]

/-! ### The calls of a call -/

/-- The calls that an expression makes. -/
def evaluateParts (host : Host) (fuel : Nat) (m : Machine) : Expr → List Config
  | .grouping inner => [⟨fuel, .evaluate inner, m⟩]
  | .unary _ right => [⟨fuel, .evaluate right, m⟩]
  | .binary left _ right =>
    evaluating host fuel left m fun _ m' => [⟨fuel, .evaluate right, m'⟩]
  | .logical left operator right =>
    evaluating host fuel left m fun a m' =>
      if decides operator a then [] else [⟨fuel, .evaluate right, m'⟩]
  | .assign _ _ value => [⟨fuel, .evaluate value, m⟩]
  | .call callee paren arguments =>
    evaluating host fuel callee m fun f m' =>
      ⟨fuel, .evaluateAll arguments, m'⟩ ::
        onward (evaluateAll host fuel arguments m') fun values m'' =>
          [⟨fuel, .invoke f values paren, m''⟩]
  | .get object _ => [⟨fuel, .evaluate object, m⟩]
  | .set object _ value =>
    evaluating host fuel object m fun v m' =>
      match v with
      | .object _ => [⟨fuel, .evaluate value, m'⟩]
      | _ => []
  | _ => []

/-- The calls that a statement makes. -/
def executeParts (host : Host) (fuel : Nat) (m : Machine) : Stmt → List Config
  | .expression value => [⟨fuel, .evaluate value, m⟩]
  | .print _ value => [⟨fuel, .evaluate value, m⟩]
  | .varDecl _ (some initializer) => [⟨fuel, .evaluate initializer, m⟩]
  | .block body => [⟨fuel, .executeAll body, blockEntry m⟩]
  | .ifElse condition thenBranch elseBranch =>
    evaluating host fuel condition m fun c m' =>
      if c.isTruthy then [⟨fuel, .execute thenBranch, m'⟩]
      else elseBranch.toList.map (⟨fuel, .execute ·, m'⟩)
  | .whileLoop condition body => [⟨fuel, .loop condition body, m⟩]
  | .ret _ (some value) => [⟨fuel, .evaluate value, m⟩]
  | .classDecl _ (some parent) _ => [⟨fuel, .evaluate parent, m⟩]
  | _ => []

/-- The calls that a call makes, in order. -/
def parts (host : Host) : Config → List Config
  | ⟨fuel + 1, .evaluate e, m⟩ => evaluateParts host fuel m e
  | ⟨fuel + 1, .evaluateAll (argument :: rest), m⟩ =>
    evaluating host fuel argument m fun _ m' => [⟨fuel, .evaluateAll rest, m'⟩]
  | ⟨fuel + 1, .invoke (.function closure) arguments paren, m⟩ =>
    if arguments.length = closure.arity then [⟨fuel, .enter closure arguments paren, m⟩] else []
  | ⟨fuel + 1, .invoke (.classObject c) arguments paren, m⟩ =>
    if arguments.length = c.arity then [⟨fuel, .instantiate c arguments paren, m⟩] else []
  | ⟨fuel + 1, .enter closure arguments _, m⟩ =>
    [⟨fuel, .executeAll closure.declaration.body, activation closure arguments m⟩]
  | ⟨fuel + 1, .instantiate c arguments paren, m⟩ =>
    onward (Run.newInstance c m) fun target m' =>
      match c.initializer? with
      | some initializer =>
        onward (Run.bindMethod initializer target m') fun bound m'' =>
          [⟨fuel, .enter bound arguments paren, m''⟩]
      | none => []
  | ⟨fuel + 1, .execute s, m⟩ => executeParts host fuel m s
  | ⟨fuel + 1, .executeAll (s :: rest), m⟩ =>
    executing host fuel s m fun flow m' =>
      match flow with
      | .next => [⟨fuel, .executeAll rest, m'⟩]
      | .returned _ => []
  | ⟨fuel + 1, .loop condition body, m⟩ =>
    evaluating host fuel condition m fun c m' =>
      if c.isTruthy then
        executing host fuel body m' fun flow m'' =>
          match flow with
          | .next => [⟨fuel, .loop condition body, m''⟩]
          | .returned _ => []
      else []
  | ⟨fuel, .interpret (s :: rest), m⟩ =>
    executing host fuel s m fun _ m' => [⟨fuel, .interpret rest, m'⟩]
  | _ => []

theorem mem_parts_of_calls (calls : Calls host c c') : c' ∈ parts host c := by
  cases calls <;> simp [parts, evaluateParts, executeParts, *]

theorem calls_of_mem_evaluateParts {e : Expr} (mem : c ∈ evaluateParts host fuel m e) :
    Calls host ⟨fuel + 1, .evaluate e, m⟩ c := by
  cases e with
  | grouping inner =>
    cases List.mem_singleton.mp mem
    exact .grouping
  | unary operator right =>
    cases List.mem_singleton.mp mem
    exact .unary
  | binary left operator right =>
    rcases mem_evaluating.mp mem with rfl | ⟨a, m', run, mem⟩
    · exact .binaryLeft
    · cases List.mem_singleton.mp mem
      exact .binaryRight run
  | logical left operator right =>
    rcases mem_evaluating.mp mem with rfl | ⟨a, m', run, mem⟩
    · exact .logicalLeft
    · split at mem
      · cases mem
      · next undecided =>
        cases List.mem_singleton.mp mem
        exact .logicalRight run (Bool.eq_false_iff.mpr undecided)
  | assign node name value =>
    cases List.mem_singleton.mp mem
    exact .assigned
  | call callee paren arguments =>
    rcases mem_evaluating.mp mem with rfl | ⟨f, m', run, mem⟩
    · exact .callee
    · rcases List.mem_cons.mp mem with rfl | mem
      · exact .arguments run
      · obtain ⟨values, m'', run', mem⟩ := mem_onward.mp mem
        cases List.mem_singleton.mp mem
        exact .invoke run run'
  | get object name =>
    cases List.mem_singleton.mp mem
    exact .got
  | set object name value =>
    rcases mem_evaluating.mp mem with rfl | ⟨v, m', run, mem⟩
    · exact .setObject
    · split at mem
      · cases List.mem_singleton.mp mem
        exact .setValue run
      · cases mem
  | _ => cases mem

theorem calls_of_mem_executeParts {s : Stmt} (mem : c ∈ executeParts host fuel m s) :
    Calls host ⟨fuel + 1, .execute s, m⟩ c := by
  cases s with
  | expression value =>
    cases List.mem_singleton.mp mem
    exact .expression
  | print keyword value =>
    cases List.mem_singleton.mp mem
    exact .printed
  | varDecl name initializer =>
    cases initializer with
    | none => cases mem
    | some e =>
      cases List.mem_singleton.mp mem
      exact .declared
  | block body =>
    cases List.mem_singleton.mp mem
    exact .block
  | ifElse condition thenBranch elseBranch =>
    rcases mem_evaluating.mp mem with rfl | ⟨v, m', run, mem⟩
    · exact .condition
    · split at mem
      · next holds =>
        cases List.mem_singleton.mp mem
        exact .thenBranch run holds
      · next fails =>
        cases elseBranch with
        | none => cases mem
        | some stmt =>
          cases List.mem_singleton.mp mem
          exact .elseBranch run (Bool.eq_false_iff.mpr fails)
  | whileLoop condition body =>
    cases List.mem_singleton.mp mem
    exact .whileLoop
  | ret keyword value =>
    cases value with
    | none => cases mem
    | some e =>
      cases List.mem_singleton.mp mem
      exact .returned
  | classDecl name superclass methods =>
    cases superclass with
    | none => cases mem
    | some parent =>
      cases List.mem_singleton.mp mem
      exact .superclass
  | funDecl f => cases mem

theorem calls_of_mem_parts (mem : c' ∈ parts host c) : Calls host c c' := by
  unfold parts at mem
  -- the tasks in the order of the definition: an expression, and the rest of an argument list
  split at mem
  · exact calls_of_mem_evaluateParts mem
  · rcases mem_evaluating.mp mem with rfl | ⟨v, m', run, mem⟩
    · exact .first
    · cases List.mem_singleton.mp mem
      exact .others run
  -- what is called: a function, then a class
  · split at mem
    · next enough =>
      cases List.mem_singleton.mp mem
      exact .function enough
    · cases mem
  · split at mem
    · next enough =>
      cases List.mem_singleton.mp mem
      exact .classObject enough
    · cases mem
  -- what a call does: the body of a function, and the initializer of a new instance
  · cases List.mem_singleton.mp mem
    exact .body
  · obtain ⟨target, m', made, mem⟩ := mem_onward.mp mem
    split at mem
    · next initializer found =>
      obtain ⟨bound, m'', binding, mem⟩ := mem_onward.mp mem
      cases List.mem_singleton.mp mem
      exact .initializer made found binding
    · cases mem
  -- a statement, a list of them, and a loop, which goes on only when its body did not return
  · exact calls_of_mem_executeParts mem
  · rcases mem_executing.mp mem with rfl | ⟨flow, m', run, mem⟩
    · exact .firstOf
    · split at mem
      · cases List.mem_singleton.mp mem
        exact .restOf run
      · cases mem
  · rcases mem_evaluating.mp mem with rfl | ⟨v, m', run, mem⟩
    · exact .loopCondition
    · split at mem
      · next holds =>
        rcases mem_executing.mp mem with rfl | ⟨flow, m'', run', mem⟩
        · exact .loopBody run holds
        · split at mem
          · cases List.mem_singleton.mp mem
            exact .again run holds run'
          · cases mem
      · cases mem
  · rcases mem_executing.mp mem with rfl | ⟨flow, m', run, mem⟩
    · exact .statement
    · cases List.mem_singleton.mp mem
      exact .statements run
  · cases mem

/-- The calls that a call makes are its parts. -/
theorem mem_parts : c' ∈ parts host c ↔ Calls host c c' :=
  ⟨calls_of_mem_parts, mem_parts_of_calls⟩

/-! ### Depth -/

/-- More than the number of calls that can be made one inside the other from a call on. -/
def Config.depth (c : Config) : Nat :=
  match c.call with
  | .interpret ss => c.fuel + ss.length + 1
  | _ => c.fuel

theorem calls_depth (calls : Calls host c c') : c'.depth < c.depth := by
  cases calls with
  | statement =>
    simp only [Config.depth, List.length_cons]
    omega
  | _ => simp [Config.depth]

end Lox.Evaluation
