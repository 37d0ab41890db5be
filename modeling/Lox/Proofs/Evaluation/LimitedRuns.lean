import Lox.Proofs.Evaluation.Truncation

/-! # Runs with a limited output

  Before one call of the evaluator makes another, it runs a computation that a limit of the
  output truncates like any other (`Calls.prelude`). So the calls that are made with a limit
  are the calls that are made without one, up to the line that does not fit
  (`reaches_limited_iff`), and a sink that fails cuts a run off there and does nothing else
  (`limited_output_truncates_runs`).
-/

namespace Lox.Evaluation

variable {α β : Type} {host : Host} {n : Nat} {reason : String} {m m' : Machine}

/-! ### What comes before a call -/

/-- Whether every limit truncates a computation, wherever it prints. -/
def Truncatable (x : Run α) : Prop :=
  ∀ n reason m, Truncates n reason (fun _ _ _ => True) m x

theorem truncatable_evaluate {fuel : Nat} {e : Expr} :
    Truncatable (evaluate host fuel e) :=
  fun n reason m => ((truncatesAt n reason host fuel).evaluate e m).weaken fun _ _ _ _ => trivial

theorem truncatable_evaluateAll {fuel : Nat} {es : List Expr} :
    Truncatable (evaluateAll host fuel es) :=
  fun n reason m =>
    ((truncatesAt n reason host fuel).evaluateAll es m).weaken fun _ _ _ _ => trivial

theorem truncatable_execute {fuel : Nat} {s : Stmt} :
    Truncatable (execute host fuel s) :=
  fun n reason m => ((truncatesAt n reason host fuel).execute s m).weaken fun _ _ _ _ => trivial

/-- One computation and then another that does not depend on it. -/
def both (x : Run α) (y : Run β) : Run (α × β) := do
  let a ← x
  let b ← y
  return (a, b)

theorem truncatable_both {x : Run α} {y : Run β} (first : Truncatable x)
    (second : Truncatable y) : Truncatable (both x y) := by
  intro n reason m
  apply truncates_bind (first n reason m)
  intro a m' _
  apply truncates_bind (second n reason m')
  intro b m'' _
  exact truncates_pure _

theorem both_eq_ok_iff {x : Run α} {y : Run β} {a : α} {b : β} :
    both x y m = .ok (a, b) m' ↔ ∃ m₁, x m = .ok a m₁ ∧ y m₁ = .ok b m' := by
  constructor
  · intro run
    obtain ⟨a', m₁, first, run⟩ := ok_of_bind run
    obtain ⟨b', m₂, second, run⟩ := ok_of_bind run
    cases run
    exact ⟨m₁, first, second⟩
  · rintro ⟨m₁, first, second⟩
    unfold both
    rw [bind_ok first, bind_ok second]
    rfl

/-- A computation that a call runs before it makes another call: whenever it ends so, that call
    is made on the machine it leaves. -/
def HasPrelude (host : Host) (c c' : Config) : Prop :=
  ∃ (α : Type) (x : Run α) (a : α), Truncatable x ∧ x c.machine = .ok a c'.machine ∧
    ∀ m m', x m = .ok a m' → Calls host ⟨c.fuel, c.call, m⟩ ⟨c'.fuel, c'.call, m'⟩

/-- Some calls are made at once. -/
theorem HasPrelude.none {fuel fuel' : Nat} {call call' : Call}
    (calls : ∀ m, Calls host ⟨fuel, call, m⟩ ⟨fuel', call', m⟩) :
    HasPrelude host ⟨fuel, call, m⟩ ⟨fuel', call', m⟩ := by
  refine ⟨Unit, pure (), (), fun _ _ _ => truncates_pure (), rfl, ?_⟩
  rintro m m' ⟨⟩
  exact calls m

/-- Others are made once a scope has been entered. -/
theorem HasPrelude.entry {fuel fuel' : Nat} {call call' : Call} {enter : Machine → Machine}
    (blind : ∀ m sink, enter (withSink sink m) = withSink sink (enter m))
    (calls : ∀ m, Calls host ⟨fuel, call, m⟩ ⟨fuel', call', enter m⟩) :
    HasPrelude host ⟨fuel, call, m⟩ ⟨fuel', call', enter m⟩ := by
  have silent : Silent (fun m => .ok () (enter m) : Run Unit) :=
    fun m sink => congrArg (EStateM.Result.ok ()) (blind m sink)
  refine ⟨Unit, fun m => .ok () (enter m), (), fun _ _ _ => silent.truncates, rfl, ?_⟩
  rintro m m' ⟨⟩
  exact calls m

theorem Calls.prelude {c c' : Config} (calls : Calls host c c') : HasPrelude host c c' := by
  -- what a rule of `Calls` asks for is what runs before, and the rule itself leads back
  cases calls with
  | grouping => exact .none fun _ => .grouping
  | unary => exact .none fun _ => .unary
  | binaryLeft => exact .none fun _ => .binaryLeft
  | binaryRight run =>
    exact ⟨_, _, _, truncatable_evaluate, run, fun _ _ run => .binaryRight run⟩
  | logicalLeft => exact .none fun _ => .logicalLeft
  | logicalRight run undecided =>
    exact ⟨_, _, _, truncatable_evaluate, run, fun _ _ run => .logicalRight run undecided⟩
  | assigned => exact .none fun _ => .assigned
  | callee => exact .none fun _ => .callee
  | arguments run =>
    exact ⟨_, _, _, truncatable_evaluate, run, fun _ _ run => .arguments run⟩
  | invoke run run' =>
    refine ⟨_, _, _, truncatable_both truncatable_evaluate truncatable_evaluateAll,
      both_eq_ok_iff.mpr ⟨_, run, run'⟩, ?_⟩
    intro m m' run
    obtain ⟨m₁, run, run'⟩ := both_eq_ok_iff.mp run
    exact .invoke run run'
  | got => exact .none fun _ => .got
  | setObject => exact .none fun _ => .setObject
  | setValue run =>
    exact ⟨_, _, _, truncatable_evaluate, run, fun _ _ run => .setValue run⟩
  | first => exact .none fun _ => .first
  | others run => exact ⟨_, _, _, truncatable_evaluate, run, fun _ _ run => .others run⟩
  | function enough => exact .none fun _ => .function enough
  | classObject enough => exact .none fun _ => .classObject enough
  | body => exact .entry (fun _ _ => rfl) fun _ => .body
  | initializer made found binding =>
    refine ⟨_, _, _, truncatable_both (fun _ _ _ => (silent_newInstance _).truncates)
      (fun _ _ _ => (silent_bindMethod _ _).truncates),
      both_eq_ok_iff.mpr ⟨_, made, binding⟩, ?_⟩
    intro m m' run
    obtain ⟨m₁, made, binding⟩ := both_eq_ok_iff.mp run
    exact .initializer made found binding
  | expression => exact .none fun _ => .expression
  | printed => exact .none fun _ => .printed
  | declared => exact .none fun _ => .declared
  | block => exact .entry (fun _ _ => rfl) fun _ => .block
  | condition => exact .none fun _ => .condition
  | thenBranch run holds =>
    exact ⟨_, _, _, truncatable_evaluate, run, fun _ _ run => .thenBranch run holds⟩
  | elseBranch run fails =>
    exact ⟨_, _, _, truncatable_evaluate, run, fun _ _ run => .elseBranch run fails⟩
  | whileLoop => exact .none fun _ => .whileLoop
  | returned => exact .none fun _ => .returned
  | superclass => exact .none fun _ => .superclass
  | firstOf => exact .none fun _ => .firstOf
  | restOf run => exact ⟨_, _, _, truncatable_execute, run, fun _ _ run => .restOf run⟩
  | loopCondition => exact .none fun _ => .loopCondition
  | loopBody run holds =>
    exact ⟨_, _, _, truncatable_evaluate, run, fun _ _ run => .loopBody run holds⟩
  | again run holds run' =>
    refine ⟨_, _, _, truncatable_both truncatable_evaluate truncatable_execute,
      both_eq_ok_iff.mpr ⟨_, run, run'⟩, ?_⟩
    intro m m' run
    obtain ⟨m₁, run, run'⟩ := both_eq_ok_iff.mp run
    exact .again run holds run'
  | statement => exact .none fun _ => .statement
  | statements run =>
    exact ⟨_, _, _, truncatable_execute, run, fun _ _ run => .statements run⟩

/-- Calls only add to the output. -/
theorem Calls.continues {c c' : Config} (calls : Calls host c c')
    (endless : c.machine.sink.capacity = none) : Continues c.machine c'.machine := by
  obtain ⟨α, x, a, truncatable, run, _⟩ := calls.prelude
  have grows := (truncatable 0 "" c.machine endless).grows
  rw [run] at grows
  exact grows

theorem Reaches.continues {c c' : Config} (reached : Reaches host c c')
    (endless : c.machine.sink.capacity = none) : Continues c.machine c'.machine := by
  induction reached with
  | refl => exact .of_same rfl
  | step calls _ ih =>
    have first := calls.continues endless
    exact first.trans (ih (first.capacity.trans endless))

/-! ### Calls with a limit -/

/-- The call with a limit of the output. -/
def Config.limited (n : Nat) (reason : String) (c : Config) : Config :=
  ⟨c.fuel, c.call, Evaluation.limited n reason c.machine⟩

/-- What ends well with a limit ends so without one, within the limit. -/
theorem Truncates.ok_iff {x : Run α} {P : Token → Value → Machine → Prop} {a : α}
    (h : Truncates n reason P m x) (endless : m.sink.capacity = none)
    (room : m.sink.written.size ≤ n) :
    x (limited n reason m) = .ok a m' ↔
      ∃ m₁, x m = .ok a m₁ ∧ m₁.sink.written.size ≤ n ∧ m' = limited n reason m₁ := by
  obtain ⟨_, fits, stops⟩ := h endless
  constructor
  · intro run
    rcases Nat.lt_or_ge n (machineAfter (x m)).sink.written.size with past | enough
    · obtain ⟨_, _, _, _, _, _, stopped⟩ := stops room past
      rw [stopped] at run
      cases run
    · have run' := (fits enough).symm.trans run
      cases result : x m with
      | ok b m₁ =>
        rw [result] at run' enough
        cases run'
        exact ⟨m₁, rfl, enough, rfl⟩
      | error e m₁ =>
        rw [result] at run'
        cases run'
  · rintro ⟨m₁, run, enough, rfl⟩
    rw [run] at fits
    exact fits enough

/-- The calls that a call makes with a limit are those that it makes without one while the
    output fits. -/
theorem calls_limited_iff {c c₁ : Config} (endless : c.machine.sink.capacity = none)
    (room : c.machine.sink.written.size ≤ n) :
    Calls host (c.limited n reason) c₁ ↔ ∃ c', Calls host c c' ∧
      c'.machine.sink.written.size ≤ n ∧ c₁ = c'.limited n reason := by
  constructor
  · intro calls
    obtain ⟨α, x, a, truncatable, run, back⟩ := calls.prelude
    obtain ⟨m', run, enough, same⟩ := ((truncatable n reason c.machine).ok_iff endless room).mp run
    refine ⟨⟨c₁.fuel, c₁.call, m'⟩, back c.machine m' run, enough, ?_⟩
    rw [Config.limited, ← same]
  · rintro ⟨c', calls, enough, rfl⟩
    obtain ⟨α, x, a, truncatable, run, back⟩ := calls.prelude
    exact back _ _
      (((truncatable n reason c.machine).ok_iff endless room).mpr ⟨c'.machine, run, enough, rfl⟩)

theorem reaches_limited_iff {c c₁ : Config} (endless : c.machine.sink.capacity = none)
    (room : c.machine.sink.written.size ≤ n) :
    Reaches host (c.limited n reason) c₁ ↔ ∃ c', Reaches host c c' ∧
      c'.machine.sink.written.size ≤ n ∧ c₁ = c'.limited n reason := by
  constructor
  · -- on the calls: each of them is made within the limit, and so the next one starts there
    intro reached
    generalize start : c.limited n reason = c₀ at reached
    induction reached generalizing c with
    | refl => exact ⟨c, .refl c, room, start.symm⟩
    | step calls _ ih =>
      subst start
      obtain ⟨c', calls', enough, rfl⟩ := (calls_limited_iff endless room).mp calls
      have endless' := (calls'.continues endless).capacity.trans endless
      obtain ⟨c'', reached, within, rfl⟩ := ih endless' enough rfl
      exact ⟨c'', .step calls' reached, within, rfl⟩
  · rintro ⟨c', reached, enough, rfl⟩
    induction reached with
    | refl => exact .refl _
    | step calls rest ih =>
      have first := calls.continues endless
      have endless' := first.capacity.trans endless
      have room' := Nat.le_trans (rest.continues endless').size_le enough
      exact .step ((calls_limited_iff endless room).mpr ⟨_, calls, room', rfl⟩)
        (ih endless' room' enough)

/-! ### Runs with a limit -/

/-- A program that is run with room for n more bytes, on any machine that had no limit. If its
    output fits, the run is the same as without the limit. Otherwise it ends at a print
    statement whose line crosses the limit, with the complaint of the sink at its keyword, the
    first bytes of the output written, and all else as it was in front of that line. In both
    cases the calls made in its course are those made without the limit before the output goes
    past it, and no others. -/
theorem limited_output_truncates_runs (host : Host) (fuel n : Nat) (reason : String)
    (program : List Stmt) (m : Machine) (endless : m.sink.capacity = none)
    (room : m.sink.written.size ≤ n) :
    let run := interpret host fuel program m
    let output := (machineAfter run).sink.written
    (output.size ≤ n →
      interpret host fuel program (limited n reason m) = mapMachine (limited n reason) run) ∧
    (n < output.size → ∃ keyword v m₁,
      Prints host ⟨fuel, .interpret program, m⟩ keyword v m₁ ∧
      Crosses n output m₁ (lineOf v) ∧
      interpret host fuel program (limited n reason m) =
        .error (.fault ⟨keyword, .outputRefused reason⟩)
          (cutOff n reason output { m₁ with scope := m.scope }) ∧
      (RuntimeError.mk keyword (.outputRefused reason)).message =
        "Unable to write output: " ++ reason) ∧
    ∀ c, Reaches host ⟨fuel, .interpret program, limited n reason m⟩ c ↔
      ∃ c', Reaches host ⟨fuel, .interpret program, m⟩ c' ∧
        c'.machine.sink.written.size ≤ n ∧ c = c'.limited n reason := by
  intro run output
  obtain ⟨_, fits, stops⟩ := truncates_interpret n reason host fuel program m endless
  refine ⟨fits, ?_, ?_⟩
  · intro past
    obtain ⟨keyword, v, m₁, scope, printed, crosses, stopped⟩ := stops room past
    -- wherever the line is printed, the run ends in the scope that it began in
    have restored := restores_interpret host fuel program (limited n reason m)
    rw [stopped] at restored
    have here : scope = m.scope := restored
    subst here
    exact ⟨keyword, v, m₁, printed, crosses, stopped, rfl⟩
  · intro c
    exact reaches_limited_iff (c := ⟨fuel, .interpret program, m⟩) endless room

/-- The theorem at `print true; { print false; } print nil;` with room for six bytes: the run
    ends at the second line, of which one byte is written. -/
theorem limited_output_truncates_runs_midway :
    let host := Host.standard 0
    let keyword := fun line : Nat => (⟨.keyword .printWord, "print", line⟩ : Token)
    let program := [.print (keyword 1) (.literal (.bool true)),
      .block [.print (keyword 2) (.literal (.bool false))],
      .print (keyword 3) (.literal .nil)]
    let m := Machine.start host .unlimited
    limited 6 "full" m = Machine.start host (.limited 6 "full") ∧
      ∃ v m₁, Prints host ⟨4, .interpret program, m⟩ (keyword 2) v m₁ ∧
        Crosses 6 "true\nfalse\nnil\n".toUTF8.data m₁ (lineOf v) ∧
        interpret host 4 program (limited 6 "full" m) =
          .error (.fault ⟨keyword 2, .outputRefused "full"⟩)
            (cutOff 6 "full" "true\nfalse\nnil\n".toUTF8.data { m₁ with scope := m.scope }) ∧
        "true\nfalse\nnil\n".toUTF8.data.extract 0 6 = "true\nf".toUTF8.data := by
  intro host keyword program m
  refine ⟨rfl, ?_⟩
  have output : (machineAfter (interpret host 4 program m)).sink.written =
      "true\nfalse\nnil\n".toUTF8.data := rfl
  have size : "true\nfalse\nnil\n".toUTF8.data.size = 15 := by cbv
  have ends : ∃ m', interpret host 4 program (limited 6 "full" m) =
      .error (.fault ⟨keyword 2, .outputRefused "full"⟩) m' := ⟨_, rfl⟩
  obtain ⟨m', ends⟩ := ends
  obtain ⟨_, truncated, _⟩ :=
    limited_output_truncates_runs host 4 6 "full" program m rfl (by decide)
  rw [output, size] at truncated
  obtain ⟨k, v, m₁, printed, crosses, stopped, _⟩ := truncated (by decide)
  have same : k = keyword 2 := by
    rw [ends] at stopped
    cases stopped
    rfl
  subst same
  exact ⟨v, m₁, printed, crosses, stopped, by cbv⟩

end Lox.Evaluation
