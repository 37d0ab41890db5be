import Lox.Proofs.Evaluation.Calls
import Lox.Proofs.Evaluation.Initializers
import Lox.Proofs.Evaluation.Restoration
import Lox.Proofs.Evaluation.Silence

/-! # Output that ends

  A computation on a machine whose output has no limit is compared with the same computation
  on a machine that has room for so many bytes. `Truncates` says that the two come to the same
  if the whole output fits; and if it does not, that the second one stops at the first line
  that does not fit, with a complaint at the keyword of its statement, and with the machine
  that the first one had there. What happens in the course of the second run is what happens
  in the first one before that line.
-/

namespace Lox.Evaluation

variable {α β : Type} {host : Host} {fuel n : Nat} {reason : String} {m m' : Machine}

/-! ### Bytes -/

theorem extract_of_fits {bytes more : Array UInt8} (fits : n ≤ bytes.size) :
    (bytes ++ more).extract 0 n = bytes.extract 0 n := by
  rw [Array.extract_append, Nat.sub_eq_zero_of_le fits, Nat.zero_sub, Array.extract_zero,
    Array.append_empty]

theorem extract_of_room {bytes more : Array UInt8} (room : bytes.size ≤ n) :
    (bytes ++ more).extract 0 n = bytes ++ more.extract 0 (n - bytes.size) := by
  rw [Array.extract_append, Nat.zero_sub, Array.extract_eq_self_of_le room]

/-! ### Machines with a limit -/

/-- The machine with room for so many bytes of output, after which the sink refuses with this
    reason. -/
def limited (n : Nat) (reason : String) (m : Machine) : Machine :=
  withSink { m.sink with capacity := some n, refusal := reason } m

/-- The machine with more bytes written. -/
def appended (bytes : Array UInt8) (m : Machine) : Machine :=
  withSink { m.sink with written := m.sink.written ++ bytes } m

/-- The machine with the first bytes of an output. -/
def cutOff (n : Nat) (reason : String) (output : Array UInt8) (m : Machine) : Machine :=
  withSink ⟨output.extract 0 n, some n, reason⟩ m

/-- The bytes of a line that prints a value. -/
def lineOf (v : Value) : Array UInt8 :=
  (v.text ++ "\n").toUTF8.data

/-- The line that is printed on a machine takes an output past its first bytes. -/
structure Crosses (n : Nat) (output : Array UInt8) (m : Machine) (line : Array UInt8) : Prop where
  before : m.sink.written.size ≤ n
  beyond : n < (m.sink.written ++ line).size
  within : ∃ more, output = m.sink.written ++ line ++ more

theorem Crosses.extend {output line : Array UInt8} (h : Crosses n output m line)
    (more : Array UInt8) : Crosses n (output ++ more) m line := by
  obtain ⟨rest, rfl⟩ := h.within
  exact ⟨h.before, h.beyond, rest ++ more, Array.append_assoc⟩

/-- The output of a machine without a limit was continued. -/
def Continues (m m' : Machine) : Prop :=
  ∃ more, m'.sink = (appended more m).sink

theorem Continues.of_same (same : m'.sink = m.sink) : Continues m m' := by
  refine ⟨#[], ?_⟩
  rw [same, appended, Array.append_empty]
  rfl

theorem Continues.trans {m'' : Machine} (first : Continues m m') (second : Continues m' m'') :
    Continues m m'' := by
  obtain ⟨more, first⟩ := first
  obtain ⟨rest, second⟩ := second
  refine ⟨more ++ rest, ?_⟩
  rw [second, appended, first, appended, appended, ← Array.append_assoc]
  rfl

theorem Continues.capacity (h : Continues m m') : m'.sink.capacity = m.sink.capacity := by
  obtain ⟨more, same⟩ := h
  rw [same]
  rfl

theorem Continues.output (h : Continues m m') :
    ∃ more, m'.sink.written = m.sink.written ++ more := by
  obtain ⟨more, same⟩ := h
  exact ⟨more, congrArg Sink.written same⟩

theorem Continues.size_le (h : Continues m m') :
    m.sink.written.size ≤ m'.sink.written.size := by
  obtain ⟨more, output⟩ := h.output
  rw [output, Array.size_append]
  exact Nat.le_add_right _ _

/-! ### Two runs -/

/-- On a machine without a limit and on the same one with a limit, a computation does the same
    as long as its output fits, and stops at the first line that does not fit. `P` tells of a
    keyword, a value and a machine that the value is printed on. -/
structure Truncated (n : Nat) (reason : String) (P : Token → Value → Machine → Prop)
    (m : Machine) (x : Run α) : Prop where
  /-- The output only grows. -/
  grows : Continues m (machineAfter (x m))
  /-- If all of it fits, the limit is not noticed. -/
  fits : (machineAfter (x m)).sink.written.size ≤ n →
    x (limited n reason m) = mapMachine (limited n reason) (x m)
  /-- Otherwise the limited run stops where the limit is crossed. -/
  stops : m.sink.written.size ≤ n → n < (machineAfter (x m)).sink.written.size →
    ∃ keyword v m₁ scope, P keyword v m₁ ∧
      Crosses n (machineAfter (x m)).sink.written m₁ (lineOf v) ∧
      x (limited n reason m) = .error (.fault ⟨keyword, .outputRefused reason⟩)
        (cutOff n reason (machineAfter (x m)).sink.written { m₁ with scope })

/-- `Truncated` on a machine without a limit. -/
def Truncates (n : Nat) (reason : String) (P : Token → Value → Machine → Prop)
    (m : Machine) (x : Run α) : Prop :=
  m.sink.capacity = none → Truncated n reason P m x

section

variable {P Q : Token → Value → Machine → Prop} {x : Run α}

theorem Truncates.weaken (h : Truncates n reason P m x)
    (imp : ∀ keyword v m₁, P keyword v m₁ → Q keyword v m₁) : Truncates n reason Q m x := by
  intro endless
  obtain ⟨grows, fits, stops⟩ := h endless
  refine ⟨grows, fits, ?_⟩
  intro room past
  obtain ⟨keyword, v, m₁, scope, printed, crosses, run⟩ := stops room past
  exact ⟨keyword, v, m₁, scope, imp _ _ _ printed, crosses, run⟩

theorem Silent.truncates (h : Silent x) : Truncates n reason P m x := by
  intro _
  refine ⟨.of_same (h.sink_eq m), ?_, ?_⟩
  · intro _
    have run := h m { m.sink with capacity := some n, refusal := reason }
    have same := h.sink_eq m
    refine run.trans ?_
    cases result : x m with
    | ok a m' =>
      have same : m'.sink = m.sink := by rwa [result] at same
      simp only [mapMachine, limited, same]
    | error e m' =>
      have same : m'.sink = m.sink := by rwa [result] at same
      simp only [mapMachine, limited, same]
  · intro room past
    rw [h.sink_eq m] at past
    exact absurd past (Nat.not_lt.mpr room)

/-- One computation and then another: the second one is reached if the output of the first
    one fits. -/
theorem truncates_bind {f : α → Run β} (first : Truncates n reason P m x)
    (second : ∀ a m', x m = .ok a m' → Truncates n reason P m' (f a)) :
    Truncates n reason P m (x >>= f) := by
  intro endless
  obtain ⟨grows, fits, stops⟩ := first endless
  cases run : x m with
  | error e m' =>
    have whole : (x >>= f) m = .error e m' := bind_error run
    rw [run] at grows fits stops
    refine ⟨?_, ?_, ?_⟩
    · rw [whole]
      exact grows
    · rw [whole]
      intro enough
      exact bind_error (fits enough)
    · rw [whole]
      intro room past
      obtain ⟨keyword, v, m₁, scope, printed, crosses, stopped⟩ := stops room past
      exact ⟨keyword, v, m₁, scope, printed, crosses, bind_error stopped⟩
  | ok a m' =>
    have whole : (x >>= f) m = f a m' := bind_ok run
    rw [run] at grows fits stops
    have grows : Continues m m' := grows
    obtain ⟨grows', fits', stops'⟩ := second a m' run (grows.capacity.trans endless)
    refine ⟨?_, ?_, ?_⟩
    · rw [whole]
      exact grows.trans grows'
    · rw [whole]
      intro enough
      rw [bind_ok (fits (Nat.le_trans grows'.size_le enough))]
      exact fits' enough
    · rw [whole]
      intro room past
      by_cases enough : m'.sink.written.size ≤ n
      · obtain ⟨keyword, v, m₁, scope, printed, crosses, stopped⟩ := stops' enough past
        refine ⟨keyword, v, m₁, scope, printed, crosses, ?_⟩
        rw [bind_ok (fits enough)]
        exact stopped
      · -- the first computation has crossed the limit, and what follows adds to its output
        have beyond := Nat.lt_of_not_le enough
        obtain ⟨keyword, v, m₁, scope, printed, crosses, stopped⟩ := stops room beyond
        obtain ⟨more, longer⟩ := grows'.output
        refine ⟨keyword, v, m₁, scope, printed, ?_, ?_⟩
        · rw [longer]
          exact crosses.extend more
        · rw [longer, bind_error stopped]
          unfold cutOff
          rw [extract_of_fits (Nat.le_of_lt beyond)]
          rfl

theorem truncates_get {f : Machine → Run α} (h : Truncates n reason P m (f m))
    (blind : ∀ m sink, f (withSink sink m) = f m) : Truncates n reason P m (get >>= f) := by
  intro endless
  obtain ⟨grows, fits, stops⟩ := h endless
  have limitless : (get >>= f) (limited n reason m) = f m (limited n reason m) := by
    show f (limited n reason m) (limited n reason m) = _
    rw [limited, blind]
  refine ⟨grows, fun enough => limitless.trans (fits enough), ?_⟩
  rw [limitless]
  exact stops

theorem truncates_within {scope : Scope} (h : Truncates n reason P { m with scope } x) :
    Truncates n reason P m (Run.within scope x) := by
  intro endless
  obtain ⟨grows, fits, stops⟩ := h endless
  have after := machineAfter_within scope x m
  have entered : limited n reason { m with scope } = { limited n reason m with scope } := rfl
  refine ⟨?_, ?_, ?_⟩
  · rw [after]
    exact grows
  · rw [after]
    intro enough
    have run := fits enough
    rw [entered] at run
    unfold Run.within
    rw [run]
    cases x { m with scope } <;> rfl
  · rw [after]
    intro room past
    obtain ⟨keyword, v, m₁, _, printed, crosses, stopped⟩ := stops room past
    rw [entered] at stopped
    refine ⟨keyword, v, m₁, m.scope, printed, crosses, ?_⟩
    unfold Run.within
    rw [stopped]
    rfl

/-- Printing on a machine with a limit. -/
theorem printLine_limited (keyword : Token) (v : Value) (m : Machine) :
    let room := n - m.sink.written.size
    let after := limited n reason (appended ((lineOf v).extract 0 room) m)
    Run.printLine keyword v.text (limited n reason m) =
      if (lineOf v).size ≤ room then .ok () after
      else .error (.fault ⟨keyword, .outputRefused reason⟩) after := by
  intro room after
  unfold Run.printLine
  by_cases enough : (lineOf v).size ≤ room
  · rw [if_pos enough]
    exact if_pos (decide_eq_true enough)
  · rw [if_neg enough]
    exact if_neg fun fits => enough (of_decide_eq_true fits)

theorem truncates_printLine {keyword : Token} {v : Value} (printed : P keyword v m) :
    Truncates n reason P m (Run.printLine keyword v.text) := by
  intro endless
  have run : Run.printLine keyword v.text m =
      .ok () (appended (lineOf v) m) := by
    unfold Run.printLine
    rw [Sink.write_of_unlimited endless]
    rfl
  have output : (machineAfter (Run.printLine keyword v.text m)).sink.written =
      m.sink.written ++ lineOf v := by
    rw [run]
    rfl
  refine ⟨?_, ?_, ?_⟩
  · rw [run]
    exact ⟨lineOf v, rfl⟩
  · rw [output, run, Array.size_append]
    intro enough
    have line : (lineOf v).size ≤ n - m.sink.written.size := Nat.le_sub_of_add_le' enough
    rw [printLine_limited, if_pos line, Array.extract_eq_self_of_le line]
    rfl
  · rw [output]
    intro room past
    have line : ¬(lineOf v).size ≤ n - m.sink.written.size := by
      rw [Array.size_append] at past
      omega
    refine ⟨keyword, v, m, m.scope, printed, ⟨room, past, #[], ?_⟩, ?_⟩
    · rw [Array.append_empty]
    · rw [printLine_limited, if_neg line, cutOff, extract_of_room room]
      rfl

end

/-! ### The evaluator -/

/-- In the course of a call, a print statement has come to a value on a machine. -/
def Prints (host : Host) (c : Config) (keyword : Token) (v : Value) (m : Machine) : Prop :=
  ∃ fuel value start, Reaches host c ⟨fuel + 1, .execute (.print keyword value), start⟩ ∧
    evaluate host fuel value start = .ok v m

/-- What one call prints is printed by the call that makes it. -/
theorem Truncates.called {x : Run α} {c c' : Config} (h : Truncates n reason (Prints host c') m x)
    (calls : Calls host c c') : Truncates n reason (Prints host c) m x := by
  apply h.weaken
  rintro keyword v m₁ ⟨fuel, value, start, reached, run⟩
  exact ⟨fuel, value, start, .step calls reached, run⟩

theorem truncates_pure {P : Token → Value → Machine → Prop} (a : α) :
    Truncates n reason P m (pure a : Run α) :=
  (silent_pure a).truncates

theorem truncates_fail {P : Token → Value → Machine → Prop} (token : Token)
    (cause : RuntimeCause) : Truncates n reason P m (Run.fail token cause : Run α) :=
  (silent_fail token cause).truncates

/-- With some fuel, a limit truncates all computations of the evaluator. -/
structure TruncatesAt (n : Nat) (reason : String) (host : Host) (fuel : Nat) : Prop where
  evaluate : ∀ e m, Truncates n reason (Prints host ⟨fuel, .evaluate e, m⟩) m
    (evaluate host fuel e)
  evaluateAll : ∀ es m, Truncates n reason (Prints host ⟨fuel, .evaluateAll es, m⟩) m
    (evaluateAll host fuel es)
  invoke : ∀ f arguments paren m,
    Truncates n reason (Prints host ⟨fuel, .invoke f arguments paren, m⟩) m
      (invoke host fuel f arguments paren)
  enter : ∀ closure arguments paren m,
    Truncates n reason (Prints host ⟨fuel, .enter closure arguments paren, m⟩) m
      (enter host fuel closure arguments paren)
  instantiate : ∀ c arguments paren m,
    Truncates n reason (Prints host ⟨fuel, .instantiate c arguments paren, m⟩) m
      (instantiate host fuel c arguments paren)
  execute : ∀ s m, Truncates n reason (Prints host ⟨fuel, .execute s, m⟩) m
    (execute host fuel s)
  executeAll : ∀ ss m, Truncates n reason (Prints host ⟨fuel, .executeAll ss, m⟩) m
    (executeAll host fuel ss)
  loop : ∀ condition body m, Truncates n reason (Prints host ⟨fuel, .loop condition body, m⟩) m
    (loop host fuel condition body)

section

variable (h : TruncatesAt n reason host fuel)

include h

theorem truncates_evaluate (e : Expr) (m : Machine) :
    Truncates n reason (Prints host ⟨fuel + 1, .evaluate e, m⟩) m
      (evaluate host (fuel + 1) e) := by
  have into : ∀ {e'}, Calls host ⟨fuel + 1, .evaluate e, m⟩ ⟨fuel, .evaluate e', m⟩ →
      Truncates n reason (Prints host ⟨fuel + 1, .evaluate e, m⟩) m (evaluate host fuel e') :=
    fun calls => (h.evaluate _ m).called calls
  cases e with
  | literal value => exact truncates_pure _
  | grouping inner => exact into .grouping
  | unary operator right =>
    apply truncates_bind (into .unary)
    intro v m' _
    exact (silent_applyUnary operator v).truncates
  | binary left operator right =>
    apply truncates_bind (into .binaryLeft)
    intro v m' run
    apply truncates_bind ((h.evaluate right m').called (.binaryRight run))
    intro w m'' _
    exact (silent_applyBinary operator v w).truncates
  | logical left operator right =>
    apply truncates_bind (into .logicalLeft)
    intro v m' run
    split
    · exact truncates_pure v
    · next undecided =>
      exact (h.evaluate right m').called (.logicalRight run (Bool.eq_false_iff.mpr undecided))
  | var node name => exact (silent_readVariable node name).truncates
  | assign node name value =>
    apply truncates_bind (into .assigned)
    intro v m' _
    apply truncates_bind (silent_assignVariable node name v).truncates
    intro _ m'' _
    exact truncates_pure v
  | call callee paren arguments =>
    apply truncates_bind (into .callee)
    intro f m' run
    apply truncates_bind ((h.evaluateAll arguments m').called (.arguments run))
    intro values m'' run'
    exact (h.invoke f values paren m'').called (.invoke run run')
  | get object name =>
    apply truncates_bind (into .got)
    intro v m' _
    cases v with
    | object target => exact (silent_property target name).truncates
    | _ => exact truncates_fail name _
  | set object name value =>
    apply truncates_bind (into .setObject)
    intro v m' run
    cases v with
    | object target =>
      apply truncates_bind ((h.evaluate value m').called (.setValue run))
      intro w m'' _
      apply truncates_bind (silent_setField target name.lexeme w).truncates
      intro _ _ _
      exact truncates_pure w
    | _ => exact truncates_fail name _
  | thisRef node keyword => exact (silent_readVariable node keyword).truncates
  | superRef node keyword method => exact (silent_superMethod node keyword method).truncates

theorem truncates_evaluateAll (es : List Expr) (m : Machine) :
    Truncates n reason (Prints host ⟨fuel + 1, .evaluateAll es, m⟩) m
      (evaluateAll host (fuel + 1) es) := by
  cases es with
  | nil => exact truncates_pure _
  | cons argument rest =>
    apply truncates_bind ((h.evaluate argument m).called .first)
    intro v m' run
    apply truncates_bind ((h.evaluateAll rest m').called (.others run))
    intro values m'' _
    exact truncates_pure _

theorem truncates_invoke (f : Value) (arguments : List Value) (paren : Token) (m : Machine) :
    Truncates n reason (Prints host ⟨fuel + 1, .invoke f arguments paren, m⟩) m
      (invoke host (fuel + 1) f arguments paren) := by
  cases f with
  | function closure =>
    apply truncates_bind (silent_checkArity paren _ _).truncates
    intro _ m' checked
    obtain ⟨rfl, enough⟩ := ok_of_checkArity checked
    exact (h.enter closure arguments paren m').called (.function enough)
  | native called =>
    apply truncates_bind (silent_checkArity paren _ _).truncates
    intro _ m' _
    exact (silent_callHost host called arguments paren).truncates
  | classObject c =>
    apply truncates_bind (silent_checkArity paren _ _).truncates
    intro _ m' checked
    obtain ⟨rfl, enough⟩ := ok_of_checkArity checked
    exact (h.instantiate c arguments paren m').called (.classObject enough)
  | _ => exact truncates_fail paren _

theorem truncates_enter (closure : Closure) (arguments : List Value) (paren : Token)
    (m : Machine) : Truncates n reason (Prints host ⟨fuel + 1, .enter closure arguments paren, m⟩) m
      (enter host (fuel + 1) closure arguments paren) := by
  apply truncates_bind (silent_child _ _).truncates
  rintro scope m' ⟨⟩
  have body := (h.executeAll closure.declaration.body (activation closure arguments m)).called
    (@Calls.body host fuel closure arguments paren m)
  apply truncates_bind (truncates_within body)
  intro flow m'' _
  split
  · exact (silent_readAt _ _ _).truncates
  · exact truncates_pure _

theorem truncates_instantiate (c : Class) (arguments : List Value) (paren : Token)
    (m : Machine) : Truncates n reason (Prints host ⟨fuel + 1, .instantiate c arguments paren, m⟩) m
      (instantiate host (fuel + 1) c arguments paren) := by
  apply truncates_bind (silent_newInstance c).truncates
  intro target m' made
  cases found : c.initializer? with
  | none => exact truncates_pure _
  | some initializer =>
    apply truncates_bind (silent_bindMethod initializer target).truncates
    intro bound m'' binding
    apply truncates_bind ((h.enter bound arguments paren m'').called
      (.initializer made found binding))
    intro _ _ _
    exact truncates_pure _

theorem truncates_execute (s : Stmt) (m : Machine) :
    Truncates n reason (Prints host ⟨fuel + 1, .execute s, m⟩) m
      (execute host (fuel + 1) s) := by
  have into : ∀ {e}, Calls host ⟨fuel + 1, .execute s, m⟩ ⟨fuel, .evaluate e, m⟩ →
      Truncates n reason (Prints host ⟨fuel + 1, .execute s, m⟩) m (evaluate host fuel e) :=
    fun calls => (h.evaluate _ m).called calls
  cases s with
  | expression value =>
    apply truncates_bind (into .expression)
    intro _ m' _
    exact truncates_pure _
  | print keyword value =>
    apply truncates_bind (into .printed)
    intro v m' run
    -- the one place where something is printed
    apply truncates_bind (truncates_printLine ⟨fuel, value, m, .refl _, run⟩)
    intro _ m'' _
    exact truncates_pure _
  | varDecl name initializer =>
    cases initializer with
    | none =>
      apply truncates_bind (silent_define name.lexeme .nil).truncates
      intro _ m' _
      exact truncates_pure _
    | some e =>
      apply truncates_bind (into .declared)
      intro v m' _
      apply truncates_bind (silent_define name.lexeme v).truncates
      intro _ m'' _
      exact truncates_pure _
  | block body =>
    refine truncates_get ?_ fun _ _ => rfl
    apply truncates_bind (silent_child _ _).truncates
    rintro scope m' ⟨⟩
    exact truncates_within ((h.executeAll body (blockEntry m)).called .block)
  | ifElse condition thenBranch elseBranch =>
    apply truncates_bind (into .condition)
    intro c m' run
    split
    · next holds => exact (h.execute thenBranch m').called (.thenBranch run holds)
    · next fails =>
      cases elseBranch with
      | none => exact truncates_pure _
      | some stmt =>
        exact (h.execute stmt m').called (.elseBranch run (Bool.eq_false_iff.mpr fails))
  | whileLoop condition body => exact (h.loop condition body m).called .whileLoop
  | funDecl f =>
    apply truncates_bind (silent_declareFunction f).truncates
    intro _ m' _
    exact truncates_pure _
  | ret keyword value =>
    cases value with
    | none => exact truncates_pure _
    | some e =>
      apply truncates_bind (into .returned)
      intro v m' _
      exact truncates_pure _
  | classDecl name superclass methods =>
    cases superclass with
    | none =>
      apply truncates_bind (silent_declareClass name none methods).truncates
      intro _ m' _
      exact truncates_pure _
    | some parent =>
      apply truncates_bind (into .superclass)
      intro v m' _
      apply truncates_bind (silent_asClass (superclassToken name parent) v).truncates
      intro c m'' _
      apply truncates_bind (silent_declareClass name (some c) methods).truncates
      intro _ _ _
      exact truncates_pure _

theorem truncates_executeAll (ss : List Stmt) (m : Machine) :
    Truncates n reason (Prints host ⟨fuel + 1, .executeAll ss, m⟩) m
      (executeAll host (fuel + 1) ss) := by
  cases ss with
  | nil => exact truncates_pure _
  | cons s rest =>
    apply truncates_bind ((h.execute s m).called .firstOf)
    intro flow m' run
    cases flow with
    | next => exact (h.executeAll rest m').called (.restOf run)
    | returned v => exact truncates_pure _

theorem truncates_loop (condition : Expr) (body : Stmt) (m : Machine) :
    Truncates n reason (Prints host ⟨fuel + 1, .loop condition body, m⟩) m
      (loop host (fuel + 1) condition body) := by
  apply truncates_bind ((h.evaluate condition m).called .loopCondition)
  intro c m' run
  split
  · next holds =>
    apply truncates_bind ((h.execute body m').called (.loopBody run holds))
    intro flow m'' run'
    cases flow with
    | next => exact (h.loop condition body m'').called (.again run holds run')
    | returned v => exact truncates_pure _
  · exact truncates_pure _

end

theorem truncatesAt (n : Nat) (reason : String) (host : Host) (fuel : Nat) :
    TruncatesAt n reason host fuel := by
  -- on the fuel: every call is made with less of it, also the body of a function
  induction fuel with
  | zero =>
    have nothing : ∀ {α : Type} {P : Token → Value → Machine → Prop} {m : Machine},
        Truncates n reason P m (throw .starved : Run α) := (silent_throw .starved).truncates
    exact ⟨fun _ _ => nothing, fun _ _ => nothing, fun _ _ _ _ => nothing,
      fun _ _ _ _ => nothing, fun _ _ _ _ => nothing, fun _ _ => nothing, fun _ _ => nothing,
      fun _ _ _ => nothing⟩
  | succ fuel ih =>
    exact ⟨truncates_evaluate ih, truncates_evaluateAll ih, truncates_invoke ih,
      truncates_enter ih, truncates_instantiate ih, truncates_execute ih,
      truncates_executeAll ih, truncates_loop ih⟩

theorem truncates_interpret (n : Nat) (reason : String) (host : Host) (fuel : Nat) :
    ∀ (ss : List Stmt) (m : Machine), Truncates n reason (Prints host ⟨fuel, .interpret ss, m⟩) m
      (interpret host fuel ss)
  | [], _ => truncates_pure ()
  | s :: rest, m => by
    apply truncates_bind (((truncatesAt n reason host fuel).execute s m).called .statement)
    intro flow m' run
    exact (truncates_interpret n reason host fuel rest m').called (.statements run)

end Lox.Evaluation
