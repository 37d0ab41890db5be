import Lox.Proofs.Evaluation.Changes
import Lox.Proofs.Evaluation.Forests
import Lox.Proofs.Evaluation.Holdings
import Lox.Session
import Lox.Proofs.Grammar.ProgramTexts
import Lox.Proofs.Mirror.Copies

/-! # Evaluating an expression and printing it

  An expression can be evaluated alone, right after it was read, or stand in a `print`
  statement of a program, whose references are noted before it runs. On a fresh machine both
  come to the same, unless the expression needs a class around it: at the top level no reference
  has a distance, and where no distance is noted the identities of nodes do not matter. So the
  program may draw other identities for the tree it reads.

  No function, class or instance is in reach at the start, so nothing but the host could bring
  one in, and without one nothing is printed on the way (`Tame`).
-/

namespace Lox

mutual

/-- Whether neither `this` nor `super` stands in an expression. -/
def Expr.classless : Expr → Bool
  | .literal _ => true
  | .grouping inner => inner.classless
  | .unary _ right => right.classless
  | .binary left _ right => left.classless && right.classless
  | .logical left _ right => left.classless && right.classless
  | .var _ _ => true
  | .assign _ _ value => value.classless
  | .call callee _ arguments => callee.classless && Expr.allClassless arguments
  | .get object _ => object.classless
  | .set object _ value => object.classless && value.classless
  | .thisRef _ _ => false
  | .superRef _ _ _ => false

/-- Whether neither `this` nor `super` stands in any of the given expressions. -/
def Expr.allClassless : List Expr → Bool
  | [] => true
  | e :: rest => e.classless && Expr.allClassless rest

end

mutual

theorem Expr.classless_bare : ∀ e : Expr, e.bare.classless = e.classless
  | .literal _ => rfl
  | .grouping inner => classless_bare inner
  | .unary _ right => classless_bare right
  | .binary left _ right => by
    rw [bare, classless, classless, classless_bare left, classless_bare right]
  | .logical left _ right => by
    rw [bare, classless, classless, classless_bare left, classless_bare right]
  | .var _ _ => rfl
  | .assign _ _ value => classless_bare value
  | .call callee _ arguments => by
    rw [bare, classless, classless, classless_bare callee, allClassless_bareAll arguments]
  | .get object _ => classless_bare object
  | .set object _ value => by
    rw [bare, classless, classless, classless_bare object, classless_bare value]
  | .thisRef _ _ => rfl
  | .superRef _ _ _ => rfl

theorem Expr.allClassless_bareAll : ∀ es : List Expr, allClassless (bareAll es) = allClassless es
  | [] => rfl
  | e :: rest => by
    rw [bareAll, allClassless, allClassless, classless_bare e, allClassless_bareAll rest]

end

/-! ### References at the top level -/

namespace Binding

/-- Findings without an error in which every reference is global. -/
structure Findings.Global (f : Findings) : Prop where
  errors : f.errors = []
  references : ∀ r ∈ f.references, r.hops = Option.none

theorem Findings.global_none : Findings.none.Global :=
  ⟨rfl, fun _ no => absurd no List.not_mem_nil⟩

theorem Findings.Global.append {f g : Findings} (hf : f.Global) (hg : g.Global) :
    (f ++ g).Global := by
  constructor
  · show f.errors ++ g.errors = []
    rw [hf.errors, hg.errors]
    rfl
  · intro r mem
    rcases List.mem_append.mp mem with mem | mem
    · exact hf.references r mem
    · exact hg.references r mem

theorem Findings.global_reference (node : NodeId) (name : Token) :
    (Findings.reference [] node name).Global := by
  refine ⟨rfl, fun r mem => ?_⟩
  cases List.mem_singleton.mp mem
  rfl

mutual

/-- Outside every layer all references are global. -/
theorem inExpr_global : ∀ e : Expr, e.classless = true → (inExpr .top [] e).Global
  | .literal _, _ => Findings.global_none
  | .grouping inner, h => inExpr_global inner h
  | .unary _ right, h => inExpr_global right h
  | .binary left _ right, h => by
    obtain ⟨hl, hr⟩ := Bool.and_eq_true_iff.mp h
    exact (inExpr_global left hl).append (inExpr_global right hr)
  | .logical left _ right, h => by
    obtain ⟨hl, hr⟩ := Bool.and_eq_true_iff.mp h
    exact (inExpr_global left hl).append (inExpr_global right hr)
  | .var node name, _ => Findings.global_none.append (Findings.global_reference node name)
  | .assign node name value, h =>
    (inExpr_global value h).append (Findings.global_reference node name)
  | .call callee _ arguments, h => by
    obtain ⟨hc, ha⟩ := Bool.and_eq_true_iff.mp h
    exact (inExpr_global callee hc).append (inArguments_global arguments ha)
  | .get object _, h => inExpr_global object h
  | .set object _ value, h => by
    obtain ⟨ho, hv⟩ := Bool.and_eq_true_iff.mp h
    exact (inExpr_global value hv).append (inExpr_global object ho)
  | .thisRef _ _, h => nomatch h
  | .superRef _ _ _, h => nomatch h

theorem inArguments_global : ∀ es : List Expr, Expr.allClassless es = true →
    (inArguments .top [] es).Global
  | [], _ => Findings.global_none
  | e :: rest, h => by
    obtain ⟨he, hr⟩ := Bool.and_eq_true_iff.mp h
    exact (inExpr_global e he).append (inArguments_global rest hr)

end

end Binding

/-- Nothing is noted for global references. -/
theorem Machine.noteReferences_global {references : List Binding.Reference}
    (global : ∀ r ∈ references, r.hops = none) (m : Machine) :
    m.noteReferences references = m := by
  unfold Machine.noteReferences
  induction references with
  | nil => rfl
  | cons r rest ih =>
    rw [List.foldl_cons, global r (List.mem_cons_self ..)]
    exact ih fun r' mem => global r' (List.mem_cons_of_mem r mem)

namespace Evaluation

variable {α β : Type} {host : Host} {m m' : Machine}

/-! ### Machines without distances -/

theorem Changes.hops (changes : Changes m m') : m'.hops = m.hops := by
  induction changes with
  | refl => rfl
  | tail _ change ih => cases change <;> exact ih

theorem Changes.capacity (changes : Changes m m') : m'.sink.capacity = m.sink.capacity := by
  induction changes with
  | refl => rfl
  | @tail m₁ _ _ change ih =>
    cases change with
    | written bytes =>
      refine Eq.trans ?_ ih
      unfold Sink.write
      cases m₁.sink.room <;> rfl
    | _ => exact ih

theorem hops_get?_of_unnoted (unnoted : m.hops = ∅) (node : NodeId) :
    m.hops.get? node = none := by
  rw [unnoted]
  rfl

theorem readVariable_of_unnoted (unnoted : m.hops = ∅) (node : NodeId) (name : Token) :
    Run.readVariable node name m = readBy Machine.globals name m := by
  rw [readVariable_by, hops_get?_of_unnoted unnoted]

theorem assignVariable_of_unnoted (unnoted : m.hops = ∅) (node : NodeId) (name : Token)
    (v : Value) : Run.assignVariable node name v m = assignBy Machine.globals name v m := by
  rw [assignVariable_by, hops_get?_of_unnoted unnoted]

theorem superMethod_of_unnoted (unnoted : m.hops = ∅) (node : NodeId) (keyword method : Token) :
    superMethod node keyword method m = Run.fail keyword .superOutside m := by
  have run : Run.hopsOf node m = .ok none m :=
    congrArg (EStateM.Result.ok · m) (hops_get?_of_unnoted unnoted node)
  unfold superMethod
  rw [bind_ok run]

/-- Two computations that come to the same on every machine without distances. -/
def AgreeUnnoted (x y : Run α) : Prop :=
  ∀ m, m.hops = ∅ → x m = y m

theorem AgreeUnnoted.bind {x y : Run α} {f g : α → Run β} (first : AgreeUnnoted x y)
    (proceeds : Proceeds y) (second : ∀ a, AgreeUnnoted (f a) (g a)) :
    AgreeUnnoted (x >>= f) (y >>= g) := by
  intro m unnoted
  have after := (proceeds m).hops
  cases run : y m with
  | ok a m' =>
    rw [run] at after
    rw [bind_ok ((first m unnoted).trans run), bind_ok run]
    exact second a m' (after.trans unnoted)
  | error e m' =>
    rw [bind_error ((first m unnoted).trans run), bind_error run]

theorem agreeUnnoted_readVariable (node node' : NodeId) (name : Token) :
    AgreeUnnoted (Run.readVariable node name) (Run.readVariable node' name) := by
  intro m unnoted
  rw [readVariable_of_unnoted unnoted, readVariable_of_unnoted unnoted]

theorem agreeUnnoted_assignVariable (node node' : NodeId) (name : Token) (v : Value) :
    AgreeUnnoted (Run.assignVariable node name v) (Run.assignVariable node' name v) := by
  intro m unnoted
  rw [assignVariable_of_unnoted unnoted, assignVariable_of_unnoted unnoted]

theorem agreeUnnoted_superMethod (node node' : NodeId) (keyword method : Token) :
    AgreeUnnoted (superMethod node keyword method) (superMethod node' keyword method) := by
  intro m unnoted
  rw [superMethod_of_unnoted unnoted, superMethod_of_unnoted unnoted]

/-- Where no distance is noted, an expression evaluates as it does with all its nodes the same. -/
theorem agreeUnnoted_bare (host : Host) (fuel : Nat) :
    (∀ e : Expr, AgreeUnnoted (evaluate host fuel e.bare) (evaluate host fuel e)) ∧
      ∀ es : List Expr,
        AgreeUnnoted (evaluateAll host fuel (Expr.bareAll es)) (evaluateAll host fuel es) := by
  induction fuel with
  | zero => exact ⟨fun _ _ _ => rfl, fun _ _ _ => rfl⟩
  | succ fuel ih =>
    obtain ⟨ihe, ihs⟩ := ih
    have proceeds := proceedsAt host fuel
    have same : ∀ {γ : Type} (x : Run γ), AgreeUnnoted x x := fun _ _ _ => rfl
    constructor
    · intro e
      cases e with
      | literal value => exact same _
      | grouping inner => exact ihe inner
      | unary operator right =>
        exact (ihe right).bind (proceeds.evaluate right) fun _ => same _
      | binary left operator right =>
        apply (ihe left).bind (proceeds.evaluate left)
        intro v
        exact (ihe right).bind (proceeds.evaluate right) fun _ => same _
      | logical left operator right =>
        apply (ihe left).bind (proceeds.evaluate left)
        intro v
        split
        · exact same _
        · exact ihe right
      | var node name => exact agreeUnnoted_readVariable _ _ name
      | assign node name value =>
        apply (ihe value).bind (proceeds.evaluate value)
        intro v
        exact (agreeUnnoted_assignVariable _ _ name v).bind
          (quiet_assignVariable node name v).proceeds fun _ => same _
      | call callee paren arguments =>
        apply (ihe callee).bind (proceeds.evaluate callee)
        intro f
        exact (ihs arguments).bind (proceeds.evaluateAll arguments) fun _ => same _
      | get object name => exact (ihe object).bind (proceeds.evaluate object) fun _ => same _
      | set object name value =>
        apply (ihe object).bind (proceeds.evaluate object)
        intro v
        cases v with
        | object target => exact (ihe value).bind (proceeds.evaluate value) fun _ => same _
        | _ => exact same _
      | thisRef node keyword => exact agreeUnnoted_readVariable _ _ keyword
      | superRef node keyword method => exact agreeUnnoted_superMethod _ _ keyword method
    · intro es
      cases es with
      | nil => exact same _
      | cons argument rest =>
        apply (ihe argument).bind (proceeds.evaluate argument)
        intro v
        exact (ihs rest).bind (proceeds.evaluateAll rest) fun _ => same _

/-- Where no distance is noted, trees that differ in their nodes only evaluate alike. -/
theorem evaluate_eq_of_bare_eq {e e' : Expr} (same : e'.bare = e.bare) (unnoted : m.hops = ∅)
    (fuel : Nat) : evaluate host fuel e' m = evaluate host fuel e m := by
  have alike := (agreeUnnoted_bare host fuel).1
  rw [← alike e' m unnoted, same, alike e m unnoted]

/-! ### Machines with nothing but data -/

/-- A machine on which no distance is noted and every variable holds data. -/
structure DataOnly (m : Machine) : Prop where
  unnoted : m.hops = ∅
  held : ∀ frame name v, m.frames.lookup? frame name = some v → IsData v

/-- Whether a computation prints nothing on a machine, and leaves nothing but data on it when it
    ends with a value. -/
def TameAt (P : α → Prop) (x : Run α) (m : Machine) : Prop :=
  (machineAfter (x m)).sink = m.sink ∧ ∀ a m', x m = .ok a m' → P a ∧ DataOnly m'

/-- Whether a computation prints nothing on machines with nothing but data, and leaves such a
    machine behind when it ends with a value. -/
def Tame (P : α → Prop) (x : Run α) : Prop :=
  ∀ m, DataOnly m → TameAt P x m

section

variable {P : α → Prop} {Q : β → Prop} {x : Run α}

theorem TameAt.of_ok {a : α} (run : x m = .ok a m') (silent : m'.sink = m.sink) (holds : P a)
    (only : DataOnly m') : TameAt P x m := by
  unfold TameAt
  rw [run]
  refine ⟨silent, fun b m'' same => ?_⟩
  obtain ⟨rfl, rfl⟩ := EStateM.Result.ok.inj same
  exact ⟨holds, only⟩

theorem TameAt.of_error {e : Halt} (run : x m = .error e m') (silent : m'.sink = m.sink) :
    TameAt P x m := by
  unfold TameAt
  rw [run]
  exact ⟨silent, fun b m'' same => by cases same⟩

theorem tame_pure {a : α} (holds : P a) : Tame P (pure a) :=
  fun _ only => .of_ok rfl rfl holds only

theorem tame_throw (halt : Halt) : Tame P (throw halt : Run α) :=
  fun _ _ => .of_error rfl rfl

theorem tame_fail (token : Token) (cause : RuntimeCause) :
    Tame P (Run.fail token cause : Run α) :=
  tame_throw _

theorem tame_bind {f : α → Run β} (first : Tame P x) (second : ∀ a, P a → Tame Q (f a)) :
    Tame Q (x >>= f) := by
  intro m only
  obtain ⟨silent, keeps⟩ := first m only
  cases run : x m with
  | ok a m' =>
    rw [run] at silent
    obtain ⟨holds, only'⟩ := keeps a m' run
    obtain ⟨silent', keeps'⟩ := second a holds m' only'
    rw [TameAt, bind_ok run]
    exact ⟨silent'.trans silent, keeps'⟩
  | error e m' =>
    rw [run] at silent
    exact .of_error (bind_error run) silent

theorem YieldsData.tame {x : Run Value} (h : YieldsData x) : Tame IsData x := by
  intro m only
  rcases h m with ⟨v, run, data⟩ | ⟨e, run⟩
  · exact .of_ok run rfl data only
  · exact .of_error run rfl

end

theorem tame_readVariable (node : NodeId) (name : Token) :
    Tame IsData (Run.readVariable node name) := by
  intro m only
  have byName := readVariable_of_unnoted only.unnoted node name
  cases found : m.frames.get? Machine.globals name.lexeme with
  | none => exact .of_error (byName.trans (readBy_of_none found)) rfl
  | some v =>
    obtain ⟨frame, _, held⟩ := List.exists_of_findSome?_eq_some found
    exact .of_ok (byName.trans (readBy_of_some found)) rfl
      (only.held frame name.lexeme v held) only

theorem tame_assignVariable (node : NodeId) (name : Token) {v : Value} (data : IsData v) :
    Tame (fun _ => True) (Run.assignVariable node name v) := by
  intro m only
  have byName := assignVariable_of_unnoted only.unnoted node name v
  rw [assignBy_eq] at byName
  cases found : m.frames.find? Machine.globals name.lexeme with
  | none => exact .of_error (byName.trans (assignIn_of_none found)) rfl
  | some frame =>
    refine .of_ok (byName.trans (assignIn_of_some found)) rfl trivial ⟨only.unnoted, ?_⟩
    intro other name' w held
    rcases lookup?_put_cases held with rfl | old
    · exact data
    · exact only.held other name' w old

theorem tame_superMethod (node : NodeId) (keyword method : Token) :
    Tame IsData (superMethod node keyword method) :=
  fun _ only => .of_error (superMethod_of_unnoted only.unnoted node keyword method) rfl

theorem tame_checkArity (paren : Token) (expected actual : Nat) :
    Tame (fun _ => True) (checkArity paren expected actual) := by
  unfold checkArity
  split
  · exact tame_pure trivial
  · exact tame_fail paren _

/-- All parts of data are data. -/
theorem IsData.part {v w : Value} (data : IsData w) (part : Part v w) : IsData v := by
  cases part with
  | whole => exact data
  | ofClass => exact data.elim
  | superclass => exact data.elim
  | method => exact data.elim

theorem tame_countHostCall : Tame (fun _ => True) Run.countHostCall :=
  fun _ only => .of_ok rfl rfl trivial ⟨only.unnoted, only.held⟩

theorem tame_callHost (confined : Confined host) (called : Native) {arguments : List Value}
    (data : ∀ v ∈ arguments, IsData v) (paren : Token) :
    Tame IsData (callHost host called arguments paren) := by
  apply tame_bind tame_countHostCall
  intro earlier _
  cases result : host.call called arguments earlier with
  | error message => exact tame_fail paren _
  | ok v =>
    rcases confined called arguments earlier v result with yielded | ⟨w, mem, part⟩
    · exact tame_pure yielded
    · exact tame_pure ((data w mem).part part)

/-- Of all data, only the functions of the host can be called. -/
theorem tame_invoke (confined : Confined host) (fuel : Nat) {f : Value} (data : IsData f)
    {arguments : List Value} (held : ∀ v ∈ arguments, IsData v) (paren : Token) :
    Tame IsData (invoke host fuel f arguments paren) := by
  cases fuel with
  | zero => exact tame_throw _
  | succ fuel =>
    cases f with
    | native called =>
      exact tame_bind (tame_checkArity paren _ _) fun _ _ =>
        tame_callHost confined called held paren
    | function => exact data.elim
    | classObject => exact data.elim
    | object => exact data.elim
    | _ => exact tame_fail paren _

theorem tame_evaluate (confined : Confined host) (fuel : Nat) :
    (∀ e : Expr, Tame IsData (evaluate host fuel e)) ∧
      ∀ es : List Expr, Tame (fun vs => ∀ v ∈ vs, IsData v) (evaluateAll host fuel es) := by
  induction fuel with
  | zero => exact ⟨fun _ => tame_throw _, fun _ => tame_throw _⟩
  | succ fuel ih =>
    obtain ⟨ihe, ihs⟩ := ih
    constructor
    · intro e
      cases e with
      | literal value => exact tame_pure (by cases value <;> trivial)
      | grouping inner => exact ihe inner
      | unary operator right =>
        exact tame_bind (ihe right) fun v _ => (applyUnary_data operator v).tame
      | binary left operator right =>
        apply tame_bind (ihe left)
        intro v _
        exact tame_bind (ihe right) fun w _ => (applyBinary_data operator v w).tame
      | logical left operator right =>
        apply tame_bind (ihe left)
        intro v data
        split
        · exact tame_pure data
        · exact ihe right
      | var node name => exact tame_readVariable node name
      | assign node name value =>
        apply tame_bind (ihe value)
        intro v data
        exact tame_bind (tame_assignVariable node name data) fun _ _ => tame_pure data
      | call callee paren arguments =>
        apply tame_bind (ihe callee)
        intro f data
        apply tame_bind (ihs arguments)
        intro values held
        exact tame_invoke confined fuel data held paren
      | get object name =>
        apply tame_bind (ihe object)
        intro v data
        cases v with
        -- no data is an instance
        | object => exact data.elim
        | _ => exact tame_fail name _
      | set object name value =>
        apply tame_bind (ihe object)
        intro v data
        cases v with
        | object => exact data.elim
        | _ => exact tame_fail name _
      | thisRef node keyword => exact tame_readVariable node keyword
      | superRef node keyword method => exact tame_superMethod node keyword method
    · intro es
      cases es with
      | nil => exact tame_pure (List.forall_mem_nil _)
      | cons argument rest =>
        apply tame_bind (ihe argument)
        intro v data
        apply tame_bind (ihs rest)
        intro vs held
        exact tame_pure (List.forall_mem_cons.mpr ⟨data, held⟩)

/-- A machine that is about to start knows the functions of the host and nothing else. -/
theorem dataOnly_start (host : Host) (sink : Sink) : DataOnly (.start host sink) := by
  refine ⟨rfl, ?_⟩
  intro frame name v found
  rw [Machine.start, Frames.child, lookup?_push] at found
  split at found
  · rcases foldl_set_get? (fun f : HostFunction => f.native.name) (fun f => .native f.native)
      found with no | ⟨f, _, rfl⟩
    · cases no
    · exact trivial
  · simp [Frames.lookup?, Frames.empty] at found

/-! ### The two ways to the value of an expression -/

/-- What a `print` statement makes of what its expression came to, when the output takes
    everything: a value is written with a newline, and a halt stays what it is. -/
def withLine : EStateM.Result Halt Machine Value → EStateM.Result Halt Machine Unit
  | .ok v m =>
    .ok () { m with
      sink := { m.sink with written := m.sink.written ++ (v.text ++ "\n").toUTF8.data } }
  | .error halt m => .error halt m

theorem interpret_print (keyword : Token) (e : Expr) (fuel : Nat)
    (unlimited : m.sink.capacity = none) :
    interpret host (fuel + 1) [.print keyword e] m = withLine (evaluate host fuel e m) := by
  have after := ((proceedsAt host fuel).evaluate e m).capacity
  show (execute host (fuel + 1) (.print keyword e) >>= fun _ => pure ()) m = _
  cases run : evaluate host fuel e m with
  | error halt m' =>
    have stopped : execute host (fuel + 1) (.print keyword e) m = .error halt m' := by
      rw [execute, bind_error run]
    rw [bind_error stopped]
    rfl
  | ok v m' =>
    rw [run] at after
    have room : m'.sink.capacity = none := after.trans unlimited
    have printed : Run.printLine keyword v.text m' =
        .ok () { m' with sink :=
          { m'.sink with written := m'.sink.written ++ (v.text ++ "\n").toUTF8.data } } := by
      unfold Run.printLine
      rw [Sink.write_of_unlimited room]
      rfl
    have done : execute host (fuel + 1) (.print keyword e) m = .ok .next
        { m' with sink :=
          { m'.sink with written := m'.sink.written ++ (v.text ++ "\n").toUTF8.data } } := by
      rw [execute, bind_ok run, bind_ok printed]
      rfl
    rw [bind_ok done]
    rfl

/-- Whether the tokens before the end are the text of one expression, which is read from
    them. -/
def ReadsWhole (fresh : NodeId) (tokens : List Token) (e : Expr) : Prop :=
  (Grammar.readExpression fresh tokens).value = some e ∧
    ∃ s, Grammar.nestedExpression (Grammar.start fresh tokens) = .ok e s ∧ s.rest = []

theorem ReadsWhole.tight {fresh : NodeId} {tokens : List Token} {e : Expr}
    (h : ReadsWhole fresh tokens e) : Grammar.Tight 0 (Grammar.bodyOf tokens) e := by
  obtain ⟨read, s, run, all⟩ := h
  obtain ⟨text, s', run', split, tight⟩ := Grammar.tight_of_readExpression read
  cases run.symm.trans run'
  rw [all, List.append_nil] at split
  exact split ▸ tight

/-- `print`, the tokens of an expression and a semicolon are a program with one statement. -/
theorem readProgram_print {fresh : NodeId} (fresh' : NodeId) {tokens script : List Token} {e : Expr}
    {keyword semicolon : Token} (read : ReadsWhole fresh tokens e)
    (hkeyword : keyword.kind = .keyword .printWord)
    (hsemicolon : semicolon.kind = .punctuator .semicolon)
    (text : Grammar.bodyOf script = keyword :: Grammar.bodyOf tokens ++ [semicolon]) :
    (Grammar.readProgram fresh' script).errors = [] ∧
      ∃ e' : Expr, e'.bare = e.bare ∧
        (Grammar.readProgram fresh' script).value = [.print keyword e'] := by
  have spells : (Grammar.Phrase.declarations [.print keyword e]).Spells
      (Grammar.bodyOf script) := by
    rw [text, ← List.append_nil (_ ++ [semicolon])]
    exact .declarations (.statement (.print hkeyword read.tight hsemicolon)) .noDeclarations
  obtain ⟨quiet, same⟩ := Grammar.readProgram_of_spells fresh' spells
  refine ⟨quiet, ?_⟩
  obtain ⟨s, rest, hprogram, first, last⟩ := Stmt.bareAll_eq_cons same
  obtain rfl := Stmt.bareAll_eq_nil last
  obtain ⟨e', rfl, bare⟩ := Stmt.bare_eq_print first
  exact ⟨e', bare, hprogram⟩

/-- An expression without `this` and `super` that was read from all tokens before the end can be
    printed by a program: `print`, the same tokens and a semicolon. The program has no error. On
    a fresh machine it does what evaluating the expression does on another one with the same
    host: it writes the value and a newline, or stops for the same reason at the same token. If
    the host yields data or parts of arguments only, nothing else is written. -/
theorem print_agrees_with_evaluation (host : Host) (fresh fresh' : NodeId)
    {tokens script : List Token} {e : Expr} {keyword semicolon : Token}
    (read : ReadsWhole fresh tokens e) (classless : e.classless = true)
    (hkeyword : keyword.kind = .keyword .printWord)
    (hsemicolon : semicolon.kind = .punctuator .semicolon)
    (text : Grammar.bodyOf script = keyword :: Grammar.bodyOf tokens ++ [semicolon]) :
    let program := (Grammar.readProgram fresh' script).value
    let findings := Binding.resolve program
    let machine := Machine.start host .unlimited
    let resolved := machine.noteReferences findings.references
    (Grammar.readProgram fresh' script).errors = [] ∧ findings.errors = [] ∧
    ∀ fuel,
      interpret host (fuel + 1) program resolved = withLine (evaluate host fuel e machine) ∧
      (Confined host →
        (machineAfter (interpret host (fuel + 1) program resolved)).sink.written =
          match evaluate host fuel e machine with
          | .ok v _ => (v.text ++ "\n").toUTF8.data
          | .error _ _ => #[]) := by
  intro program findings machine resolved
  obtain ⟨quiet, e', same, hprogram⟩ := readProgram_print fresh' read hkeyword hsemicolon text
  have hprogram : program = [.print keyword e'] := hprogram
  -- the tree of the program needs no class either, and so has global references only
  have free : e'.classless = true := by
    rw [← e'.classless_bare, same, e.classless_bare]
    exact classless
  have global : findings.Global := by
    show (Binding.resolve program).Global
    rw [hprogram]
    exact (Binding.inExpr_global e' free).append Binding.Findings.global_none
  have hresolved : resolved = machine := Machine.noteReferences_global global.references machine
  refine ⟨quiet, global.errors, fun fuel => ?_⟩
  have outcome : interpret host (fuel + 1) program resolved =
      withLine (evaluate host fuel e machine) := by
    rw [hprogram, hresolved, interpret_print keyword e' fuel rfl,
      evaluate_eq_of_bare_eq same rfl]
  refine ⟨outcome, fun confined => ?_⟩
  obtain ⟨silent, _⟩ := (tame_evaluate confined fuel).1 e machine (dataOnly_start host .unlimited)
  rw [outcome]
  cases run : evaluate host fuel e machine with
  | ok v m' =>
    rw [run] at silent
    have empty : m'.sink.written = #[] := congrArg Sink.written silent
    show m'.sink.written ++ _ = _
    rw [empty, Array.empty_append]
  | error halt m' =>
    rw [run] at silent
    exact congrArg Sink.written silent

/-- The theorem at `nil or clock`, with a function of the host for a value. -/
theorem print_agrees_with_evaluation_clock :
    let nothing : Token := ⟨.keyword .nilWord, "nil", 1⟩
    let orWord : Token := ⟨.keyword .orWord, "or", 1⟩
    let clock : Token := ⟨.identifier, "clock", 1⟩
    let printWord : Token := ⟨.keyword .printWord, "print", 1⟩
    let semicolon : Token := ⟨.punctuator .semicolon, ";", 1⟩
    let tokens := [nothing, orWord, clock, .ending 1]
    let script := [printWord, nothing, orWord, clock, semicolon, .ending 1]
    let e : Expr := .logical (.literal .nil) orWord (.var 0 clock)
    let program := (Grammar.readProgram 7 script).value
    let machine := Machine.start (.standard 0) .unlimited
    let resolved := machine.noteReferences (Binding.resolve program).references
    ReadsWhole 0 tokens e ∧ e.classless = true ∧
      Grammar.bodyOf script = printWord :: Grammar.bodyOf tokens ++ [semicolon] ∧
      evaluate (.standard 0) 2 e machine = .ok (.native ⟨"clock", 0⟩) machine ∧
      interpret (.standard 0) 3 program resolved =
        withLine (.ok (.native ⟨"clock", 0⟩) machine) := by
  intro nothing orWord clock printWord semicolon tokens script e program machine resolved
  have read : ReadsWhole 0 tokens e := ⟨rfl, ⟨[], [], 1⟩, rfl, rfl⟩
  obtain ⟨_, _, agrees⟩ := @print_agrees_with_evaluation (.standard 0) 0 7 tokens script e
    printWord semicolon read rfl rfl rfl rfl
  have value : evaluate (.standard 0) 2 e machine = .ok (.native ⟨"clock", 0⟩) machine := rfl
  have outcome := (agrees 2).1
  rw [value] at outcome
  exact ⟨read, rfl, rfl, value, outcome⟩

end Evaluation

end Lox
