import Lox.Proofs.Mirror.Operations

/-! # Runs that mirror each other

  Programs that mirror each other, started on machines that do, run in step: they print the
  same, stop for the same reason with the same fuel, and leave machines that mirror each other
  (`agrees_interpret`). The host has to play along: it must not tell apart what is alike on the
  two sides (`Discreet`).
-/

namespace Lox.Evaluation

variable {κ : Type} {μ : Mirror κ} {w : List κ} {here : Scope} {env : List κ} {host : Host}

/-! ### Discretion of the host -/

/-- Whether the functions of a host do not tell apart what is alike. Given arguments that are
    alike one by one, they yield, after as many calls, the same data or corresponding arguments,
    or fail with the same message. -/
def Discreet (Alike : Value → Value → Prop) (host : Host) : Prop :=
  ∀ R : Value → Value → Prop, (∀ v v', R v v' → Alike v v') →
    ∀ called vs vs' earlier, List.Forall₂ R vs vs' →
      (∃ v v', host.call called vs earlier = .ok v ∧ host.call called vs' earlier = .ok v' ∧
        (R v v' ∨ IsData v ∧ v = v')) ∨
      ∃ message, host.call called vs earlier = .error message ∧
        host.call called vs' earlier = .error message

variable {Alike : Value → Value → Prop}

theorem Discreet.honest (itself : ∀ v, Alike v v) (discreet : Discreet Alike host) :
    Honest host := by
  intro called arguments earlier v result
  have same : List.Forall₂ (fun v v' => v = v' ∧ v ∈ arguments) arguments arguments :=
    List.forall₂_same.mpr fun v mem => ⟨rfl, mem⟩
  have looks : ∀ v v', v = v' ∧ v ∈ arguments → Alike v v' := by
    rintro v v' ⟨rfl, _⟩
    exact itself v
  rcases discreet _ looks called arguments arguments earlier same with
    ⟨u, u', run, _, related⟩ | ⟨message, run, _⟩
  · rw [result] at run
    cases run
    rcases related with ⟨_, mem⟩ | ⟨data, _⟩
    · exact .inl mem
    · exact .inr data
  · rw [result] at run
    cases run

/-- The clock looks at no argument. -/
theorem discreet_timed (reading : Nat → Option Float) : Discreet Alike (.timed reading) := by
  intro R _ called vs vs' earlier _
  have same : (Host.timed reading).call called vs' earlier =
      (Host.timed reading).call called vs earlier := by
    rw [call_timed, call_timed]
    rfl
  cases answer : (Host.timed reading).call called vs earlier with
  | ok v => exact .inl ⟨v, v, rfl, same.trans answer, .inr ⟨timed_data answer, rfl⟩⟩
  | error message => exact .inr ⟨message, rfl, same.trans answer⟩

theorem discreet_standard (seconds : Float) : Discreet Alike (.standard seconds) :=
  discreet_timed _

theorem IsData.mirrors {v : Value} (h : IsData v) : ValueMirrors μ w v v := by
  cases v with
  | nil => exact .nil
  | bool => exact .bool _
  | number => exact .number _
  | string => exact .string _
  | native => exact .native _
  | _ => exact h.elim

theorem valuesMirror_grow {w' : List κ} (more : Later w w') {vs vs' : List Value}
    (h : List.Forall₂ (ValueMirrors μ w) vs vs') : List.Forall₂ (ValueMirrors μ w') vs vs' :=
  h.imp fun _ _ hv => hv.later more

theorem agrees_callHost (discreet : Discreet Alike host)
    (looks : ∀ w v v', ValueMirrors μ w v v' → Alike v v') (called : Native)
    {vs vs' : List Value} (values : List.Forall₂ (ValueMirrors μ w) vs vs') {p p' : Token}
    (token : μ.token p p') :
    Agrees μ w here (callHost host called vs p) (callHost host called vs' p')
      (ValueMirrors μ) := by
  apply agrees_bind agrees_countHostCall
  intro w' earlier _ more same
  subst same
  rcases discreet _ (looks w') called vs vs' earlier (valuesMirror_grow more values) with
    ⟨v, v', run, run', related⟩ | ⟨message, run, run'⟩
  · rw [run, run']
    rcases related with hv | ⟨data, rfl⟩
    · exact agrees_pure hv
    · exact agrees_pure data.mirrors
  · rw [run, run']
    exact agrees_fail token _

/-! ### Operators -/

theorem agrees_applyUnary {o o' : Token} (token : μ.token o o') {v v' : Value}
    (hv : ValueMirrors μ w v v') :
    Agrees μ w here (applyUnary o v) (applyUnary o' v') (ValueMirrors μ) := by
  unfold applyUnary
  rw [← μ.kind_eq token]
  split
  · cases hv with
    | number x => exact agrees_pure (.number _)
    | _ => exact agrees_fail token _
  · rw [hv.isTruthy_eq]
    exact agrees_pure (.bool _)
  · exact agrees_fail token _

theorem agrees_calculate {o o' : Token} (token : μ.token o o') {a a' b b' : Value}
    (ha : ValueMirrors μ w a a') (hb : ValueMirrors μ w b b') :
    Agrees μ w here (calculate o a b) (calculate o' a' b') (ValueMirrors μ) := by
  cases ha with
  | number x =>
    cases hb with
    | number y =>
      unfold calculate
      rw [← μ.kind_eq token]
      dsimp only
      cases result : arithmetic? o.kind x y with
      | some v => exact agrees_pure (arithmetic?_data result).mirrors
      | none => exact agrees_fail token _
    | _ => exact agrees_fail token _
  | _ => exact agrees_fail token _

theorem agrees_add {o o' : Token} (token : μ.token o o') {a a' b b' : Value}
    (ha : ValueMirrors μ w a a') (hb : ValueMirrors μ w b b') :
    Agrees μ w here (add o a b) (add o' a' b') (ValueMirrors μ) := by
  cases ha with
  | number x =>
    cases hb with
    | number y => exact agrees_pure (.number _)
    | _ => exact agrees_fail token _
  | string s =>
    cases hb with
    | string t => exact agrees_pure (.string _)
    | _ => exact agrees_fail token _
  | _ => exact agrees_fail token _

theorem agrees_applyBinary {o o' : Token} (token : μ.token o o') {a a' b b' : Value}
    (ha : ValueMirrors μ w a a') (hb : ValueMirrors μ w b b') :
    Agrees μ w here (applyBinary o a b) (applyBinary o' a' b') (ValueMirrors μ) := by
  unfold applyBinary
  rw [← μ.kind_eq token]
  split
  · exact agrees_add token ha hb
  · rw [ha.equals_eq hb]
    exact agrees_pure (.bool _)
  · rw [ha.equals_eq hb]
    exact agrees_pure (.bool _)
  · exact agrees_calculate token ha hb

theorem decides_eq {o o' : Token} (token : μ.token o o') {v v' : Value}
    (hv : ValueMirrors μ w v v') : decides o v = decides o' v' := by
  unfold decides
  rw [μ.kind_eq token, hv.isTruthy_eq]

theorem agrees_checkArity {p p' : Token} (token : μ.token p p') (expected actual : Nat) :
    Agrees μ w here (checkArity p expected actual) (checkArity p' expected actual)
      fun _ _ _ => True := by
  unfold checkArity
  by_cases same : actual = expected
  · rw [if_pos same, if_pos same]
    exact agrees_pure trivial
  · rw [if_neg same, if_neg same]
    exact agrees_fail token _

/-! ### Declarations -/

theorem agrees_declareFunction (views : Views w here env) {f f' : FunctionDecl}
    (declares : μ.Declares env f.name f'.name) (mirrors : FunctionMirrors μ env f f') :
    Agrees μ w here (declareFunction f) (declareFunction f') fun _ _ _ => True := by
  refine agrees_get fun m m' scope scope' => ?_
  rw [scope, scope']
  have making : Agrees μ w here (Run.newClosure f here false) (Run.newClosure f' here false)
      (ClosureMirrors μ) := agrees_newClosure views mirrors rfl
  apply agrees_bind making
  intro w' c c' more hc
  exact agrees_define (views.later more) declares (.function hc)

theorem setIn_mirrors {name : String} {c c' : Closure} (hc : MethodMirrors μ w c c')
    {es es' : List (String × Closure)}
    (h : List.Forall₂ (fun e e' => e.1 = e'.1 ∧ MethodMirrors μ w e.2 e'.2) es es') :
    List.Forall₂ (fun e e' => e.1 = e'.1 ∧ MethodMirrors μ w e.2 e'.2)
      (Bindings.setIn name c es) (Bindings.setIn name c' es') := by
  induction h with
  | nil => exact .cons ⟨rfl, hc⟩ .nil
  | @cons e e' es es' entry rest ih =>
    obtain ⟨key, d⟩ := e
    obtain ⟨key', d'⟩ := e'
    obtain ⟨rfl, hd⟩ : key = key' ∧ _ := entry
    unfold Bindings.setIn
    by_cases same : name = key
    · rw [if_pos same, if_pos same]
      exact .cons ⟨rfl, hc⟩ rest
    · rw [if_neg same, if_neg same]
      exact .cons ⟨rfl, hd⟩ ih

theorem agrees_methodTable {scope : Scope} {fs fs' : List FunctionDecl} :
    ∀ {w : List κ} {b b' : Bindings Closure}, Views w scope env →
      MethodsMirror μ (μ.plain :: env) fs fs' → TableMirrors μ w b b' →
      Agrees μ w here (methodTable scope fs b) (methodTable scope fs' b') (TableMirrors μ) := by
  induction fs generalizing fs' with
  | nil =>
    intro w b b' _ methods table
    cases methods with
    | nil => exact agrees_pure table
  | cons f fs ih =>
    intro w b b' views methods table
    cases methods with
    | cons hf hfs =>
      have making : Agrees μ w here (Run.newClosure f scope f.isInitializer)
          (Run.newClosure _ scope _) (MethodMirrors μ) :=
        agrees_newClosure views hf hf.isInitializer_eq
      apply agrees_bind making
      intro w' c c' more hc
      rw [hf.name_eq]
      exact ih (views.later more) hfs (setIn_mirrors hc (table.later more))

/-- The superclasses of two classes, if they have any. -/
abbrev ParentsMirror (μ : Mirror κ) (w : List κ) : Option Class → Option Class → Prop :=
  Option.Rel (ClassMirrors μ w)

theorem ParentsMirror.later {w' : List κ} (more : Later w w') {o o' : Option Class}
    (h : ParentsMirror μ w o o') : ParentsMirror μ w' o o' := by
  cases h with
  | some hc => exact .some (hc.later more)
  | none => exact .none

theorem agrees_methodScope (views : Views w here env) {o o' : Option Class}
    (parents : ParentsMirror μ w o o') :
    Agrees μ w here (methodScope o) (methodScope o') fun w' scope scope' =>
      scope = scope' ∧ Views w' scope (if o.isSome then μ.plain :: env else env) := by
  cases parents with
  | none =>
    refine agrees_get fun m m' scope scope' => ?_
    rw [scope, scope']
    exact agrees_pure ⟨rfl, views⟩
  | some hc =>
    refine agrees_get fun m m' scope scope' => ?_
    rw [scope, scope']
    have frame : FrameMirrors μ w μ.plain (.single "super" _) (.single "super" _) :=
      (frameMirrors_empty μ.plain).set (μ.names_plain.mpr rfl) (.classObject hc)
    exact agrees_child views μ.plain frame

/-- A class declaration, up to what is done with the class. -/
def declaring (name : Token) (parent : Option Class) (methods : List FunctionDecl)
    (last : Value → Run Unit) : Run Unit := do
  Run.define name.lexeme .nil
  let scope ← methodScope parent
  let table ← methodTable scope methods .empty
  let body : ClassBody := { id := ← Run.newIdentity, name := name.lexeme, methods := table }
  last (.classObject (.make body parent))

theorem agrees_declaring (views : Views w here env) {t t' : Token}
    (declares : μ.Declares env t t') (lexeme : t.lexeme = t'.lexeme) {o o' : Option Class}
    (parents : ParentsMirror μ w o o') {fs fs' : List FunctionDecl}
    (methods : MethodsMirror μ (μ.classEnv o.isSome env) fs fs') {last last' : Value → Run Unit}
    (ends : ∀ w' v v', Later w w' → ValueMirrors μ w' v v' →
      Agrees μ w' here (last v) (last' v') fun _ _ _ => True) :
    Agrees μ w here (declaring t o fs last) (declaring t' o' fs' last') fun _ _ _ => True := by
  unfold declaring
  apply agrees_bind (agrees_define views declares .nil)
  intro w₁ _ _ more₁ _
  apply agrees_bind (agrees_methodScope (views.later more₁) (parents.later more₁))
  intro w₂ scope scope' more₂ inside
  obtain ⟨rfl, views₂⟩ := inside
  have empty : TableMirrors μ w₂ .empty .empty := .nil
  apply agrees_bind (agrees_methodTable views₂ methods empty)
  intro w₃ table table' more₃ htable
  have identity : Agrees μ w₃ here Run.newIdentity Run.newIdentity fun _ i i' => i = i' :=
    fun _ _ mirrors => ⟨w₃, .refl w₃, mirrors.ofSerial 1, mirrors.serial⟩
  apply agrees_bind identity
  intro w₄ i i' more₄ same
  subst same
  have body : BodyMirrors μ w₄ ⟨i, t.lexeme, table⟩ ⟨i, t'.lexeme, table'⟩ :=
    ⟨rfl, lexeme, htable.later more₄⟩
  have more : Later w w₄ := more₁.trans (more₂.trans (more₃.trans more₄))
  apply ends w₄ _ _ more
  cases parents.later more with
  | none => exact .classObject (.base body)
  | some hc => exact .classObject (.derived body hc)

theorem methodTable_ok (scope : Scope) : ∀ (fs : List FunctionDecl) (b : Bindings Closure)
    (m : Machine), ∃ table m', methodTable scope fs b m = .ok table m' ∧
      m'.frames = m.frames ∧ m'.scope = m.scope
  | [], b, m => ⟨b, m, rfl, rfl, rfl⟩
  | _ :: fs, _, _ => methodTable_ok scope fs _ _

/-- The name of a class is found in the frame in which it was defined. -/
theorem declareClass_eq {m : Machine} {frame : FrameId} {outer : Scope}
    (scope : m.scope = frame :: outer) (below : frame < m.frames.records.size) (name : Token)
    (parent : Option Class) (methods : List FunctionDecl) :
    declareClass name parent methods m =
      declaring name parent methods (Run.define name.lexeme) m := by
  have bound : ((m.frames.put frame name.lexeme .nil).lookup? frame name.lexeme).isSome := by
    rw [Frames.lookup?_put_self _ _ _ below]
    rfl
  have start : Run.define name.lexeme .nil m =
      .ok () { m with frames := m.frames.put frame name.lexeme .nil } := by
    show EStateM.Result.ok () { m with frames := m.frames.define m.scope name.lexeme .nil } = _
    rw [scope]
    rfl
  -- the two ways of giving the class its name do the same where the first frame has the name
  have ends : ∀ (m₁ : Machine) (v : Value), m₁.scope = frame :: outer →
      (m₁.frames.lookup? frame name.lexeme).isSome →
      Run.assignIn (fun m => m.frames.find? m.scope name.lexeme) name v m₁ =
        Run.define name.lexeme v m₁ := by
    intro m₁ v scope₁ has
    have found : m₁.frames.find? m₁.scope name.lexeme = some frame := by
      unfold Frames.find?
      rw [scope₁, List.find?_cons, has]
    have defined : m₁.frames.define m₁.scope name.lexeme v =
        m₁.frames.put frame name.lexeme v := by
      rw [scope₁]
      rfl
    simp only [Run.assignIn, found, ← defined]
    rfl
  -- between the two definitions frames are opened at most
  have opening : ∃ inside m₁, methodScope parent
      { m with frames := m.frames.put frame name.lexeme .nil } = .ok inside m₁ ∧
      m₁.scope = frame :: outer ∧ (m₁.frames.lookup? frame name.lexeme).isSome := by
    cases parent with
    | none => exact ⟨_, _, rfl, scope, bound⟩
    | some c =>
      refine ⟨_, _, rfl, scope, ?_⟩
      show (Frames.lookup? ⟨(m.frames.put frame name.lexeme .nil).records.push _⟩ frame
        name.lexeme).isSome
      rw [lookup?_push]
      split
      · next same =>
        rw [same] at below
        exact absurd below (by rw [Frames.put, Array.size_modify]; exact Nat.lt_irrefl _)
      · exact bound
  obtain ⟨inside, m₁, opened, scope₁, has⟩ := opening
  obtain ⟨table, m₂, made, frames₂, scope₂⟩ := methodTable_ok inside methods .empty m₁
  unfold declareClass declaring
  show EStateM.bind _ _ m = EStateM.bind _ _ m
  rw [EStateM.bind, EStateM.bind, start]
  show EStateM.bind _ _ _ = EStateM.bind _ _ _
  rw [EStateM.bind, EStateM.bind, opened]
  show EStateM.bind _ _ _ = EStateM.bind _ _ _
  rw [EStateM.bind, EStateM.bind, made]
  exact ends { m₂ with serial := m₂.serial + 1 } _ (scope₂.trans scope₁)
    (by rw [frames₂]; exact has)

theorem agrees_declareClass (views : Views w here env) {t t' : Token}
    (declares : μ.Declares env t t') (lexeme : t.lexeme = t'.lexeme) {o o' : Option Class}
    (parents : ParentsMirror μ w o o') {fs fs' : List FunctionDecl}
    (methods : MethodsMirror μ (μ.classEnv o.isSome env) fs fs') :
    Agrees μ w here (declareClass t o fs) (declareClass t' o' fs') fun _ _ _ => True := by
  have whole := views
  cases views with
  | nil =>
    -- outside of every frame the name is not found
    refine agrees_declaring whole declares lexeme parents methods fun w' v v' more hv => ?_
    refine agrees_assignIn declares.1 hv fun m m' mirrors => .inl ?_
    rw [mirrors.scope, mirrors.scope']
    exact ⟨rfl, rfl⟩
  | @cons frame k outer env mark rest =>
    intro m m' mirrors
    obtain ⟨below, _⟩ := List.getElem?_eq_some_iff.mp mark
    rw [declareClass_eq mirrors.scope (mirrors.size ▸ below),
      declareClass_eq mirrors.scope' (mirrors.size' ▸ below)]
    refine agrees_declaring whole declares lexeme parents methods ?_ m m' mirrors
    exact fun w' v v' more hv => agrees_define (whole.later more) declares hv

/-! ### Calls of the evaluator -/

/-- Control leaves two statements in the same way. -/
inductive FlowMirrors (μ : Mirror κ) (w : List κ) : Flow → Flow → Prop where
  | next : FlowMirrors μ w .next .next
  | returned {v v' : Value} : ValueMirrors μ w v v' → FlowMirrors μ w (.returned v) (.returned v')

theorem FlowMirrors.result {f f' : Flow} (h : FlowMirrors μ w f f') :
    ValueMirrors μ w f.result f'.result := by
  cases h with
  | next => exact .nil
  | returned hv => exact hv

/-- Every call of the evaluator with some fuel agrees with the call that mirrors it, in every
    scope whose frames are of the kinds around the program text. -/
structure AgreesAt (μ : Mirror κ) (host : Host) (fuel : Nat) : Prop where
  evaluate : ∀ {w env here e e'}, Views w here env → ExprMirrors μ env e e' →
    Agrees μ w here (evaluate host fuel e) (evaluate host fuel e') (ValueMirrors μ)
  evaluateAll : ∀ {w env here es es'}, Views w here env → ExprsMirror μ env es es' →
    Agrees μ w here (evaluateAll host fuel es) (evaluateAll host fuel es') fun w' =>
      List.Forall₂ (ValueMirrors μ w')
  invoke : ∀ {w here f f' vs vs' p p'}, ValueMirrors μ w f f' →
    List.Forall₂ (ValueMirrors μ w) vs vs' → μ.token p p' →
    Agrees μ w here (invoke host fuel f vs p) (invoke host fuel f' vs' p') (ValueMirrors μ)
  enter : ∀ {w here c c' vs vs' p p'}, ClosureMirrors μ w c c' →
    List.Forall₂ (ValueMirrors μ w) vs vs' → μ.token p p' →
    Agrees μ w here (enter host fuel c vs p) (enter host fuel c' vs' p') (ValueMirrors μ)
  instantiate : ∀ {w here c c' vs vs' p p'}, ClassMirrors μ w c c' →
    List.Forall₂ (ValueMirrors μ w) vs vs' → μ.token p p' →
    Agrees μ w here (instantiate host fuel c vs p) (instantiate host fuel c' vs' p')
      (ValueMirrors μ)
  execute : ∀ {w env here s s'}, Views w here env → StmtMirrors μ env s s' →
    Agrees μ w here (execute host fuel s) (execute host fuel s') (FlowMirrors μ)
  executeAll : ∀ {w env here ss ss'}, Views w here env → StmtsMirror μ env ss ss' →
    Agrees μ w here (executeAll host fuel ss) (executeAll host fuel ss') (FlowMirrors μ)
  loop : ∀ {w env here e e' s s'}, Views w here env → ExprMirrors μ env e e' →
    StmtMirrors μ env s s' →
    Agrees μ w here (loop host fuel e s) (loop host fuel e' s') (FlowMirrors μ)

section

variable {fuel : Nat}

theorem agrees_evaluate (ih : AgreesAt μ host fuel) {e e' : Expr} (views : Views w here env)
    (mirrors : ExprMirrors μ env e e') :
    Agrees μ w here (evaluate host (fuel + 1) e) (evaluate host (fuel + 1) e')
      (ValueMirrors μ) := by
  cases mirrors with
  | literal value =>
    apply agrees_pure
    cases value <;> constructor
  | grouping inner => exact ih.evaluate views inner
  | unary token right =>
    rw [evaluate, evaluate]
    apply agrees_bind (ih.evaluate views right)
    intro w' v v' _ hv
    exact agrees_applyUnary token hv
  | binary left token right =>
    rw [evaluate, evaluate]
    apply agrees_bind (ih.evaluate views left)
    intro w₁ a a' more₁ ha
    apply agrees_bind (ih.evaluate (views.later more₁) right)
    intro w₂ b b' more₂ hb
    exact agrees_applyBinary token (ha.later more₂) hb
  | @logical o o' a a' b b' left token right =>
    rw [evaluate, evaluate]
    apply agrees_bind (ih.evaluate views left)
    intro w₁ a a' more₁ ha
    rw [decides_eq token ha]
    -- the right operands are evaluated on both sides or on neither
    by_cases decided : decides o' a' = true
    · rw [if_pos decided, if_pos decided]
      exact agrees_pure ha
    · rw [if_neg decided, if_neg decided]
      exact ih.evaluate (views.later more₁) right
  | var refers => exact agrees_readVariable views refers
  | assign refers value =>
    rw [evaluate, evaluate]
    apply agrees_bind (ih.evaluate views value)
    intro w₁ v v' more₁ hv
    apply agrees_bind (agrees_assignVariable (views.later more₁) refers hv)
    intro w₂ _ _ more₂ _
    exact agrees_pure (hv.later more₂)
  | call callee token arguments =>
    rw [evaluate, evaluate]
    apply agrees_bind (ih.evaluate views callee)
    intro w₁ f f' more₁ hf
    apply agrees_bind (ih.evaluateAll (views.later more₁) arguments)
    intro w₂ vs vs' more₂ values
    exact ih.invoke (hf.later more₂) values token
  | get object same =>
    rw [evaluate, evaluate]
    apply agrees_bind (ih.evaluate views object)
    intro w' v v' _ hv
    cases hv with
    | object id hc => exact agrees_property (.object id hc) same
    | _ => exact agrees_fail same.1 _
  | set object same value =>
    rw [evaluate, evaluate]
    apply agrees_bind (ih.evaluate views object)
    intro w₁ v v' more₁ hv
    cases hv with
    | object id hc =>
      apply agrees_bind (ih.evaluate (views.later more₁) value)
      intro w₂ u u' more₂ hu
      rw [same.2]
      apply agrees_bind (agrees_setField id _ hu)
      intro w₃ _ _ more₃ _
      exact agrees_pure (hu.later more₃)
    | _ => exact agrees_fail same.1 _
  | thisRef refers => exact agrees_readVariable views refers
  | superRef refers same => exact agrees_superMethod views refers same

theorem agrees_evaluateAll (ih : AgreesAt μ host fuel) {es es' : List Expr}
    (views : Views w here env) (mirrors : ExprsMirror μ env es es') :
    Agrees μ w here (evaluateAll host (fuel + 1) es) (evaluateAll host (fuel + 1) es') fun w' =>
      List.Forall₂ (ValueMirrors μ w') := by
  cases mirrors with
  | nil => exact agrees_pure .nil
  | cons first rest =>
    rw [evaluateAll, evaluateAll]
    apply agrees_bind (ih.evaluate views first)
    intro w₁ v v' more₁ hv
    apply agrees_bind (ih.evaluateAll (views.later more₁) rest)
    intro w₂ vs vs' more₂ values
    exact agrees_pure (.cons (hv.later more₂) values)

theorem agrees_invoke (discreet : Discreet Alike host)
    (looks : ∀ w v v', ValueMirrors μ w v v' → Alike v v') (ih : AgreesAt μ host fuel)
    {f f' : Value} {vs vs' : List Value} {p p' : Token} (hf : ValueMirrors μ w f f')
    (values : List.Forall₂ (ValueMirrors μ w) vs vs') (token : μ.token p p') :
    Agrees μ w here (invoke host (fuel + 1) f vs p) (invoke host (fuel + 1) f' vs' p')
      (ValueMirrors μ) := by
  cases hf with
  | function hc =>
    rw [invoke, invoke, RoutineMirrors.arity_eq hc, values.length_eq]
    apply agrees_bind (agrees_checkArity token _ _)
    intro w' _ _ more _
    exact ih.enter (RoutineMirrors.later more hc) (valuesMirror_grow more values) token
  | native called =>
    rw [invoke, invoke, values.length_eq]
    apply agrees_bind (agrees_checkArity token _ _)
    intro w' _ _ more _
    exact agrees_callHost discreet looks called (valuesMirror_grow more values) token
  | classObject hc =>
    rw [invoke, invoke, hc.arity_eq, values.length_eq]
    apply agrees_bind (agrees_checkArity token _ _)
    intro w' _ _ more _
    exact ih.instantiate (hc.later more) (valuesMirror_grow more values) token
  | _ => exact agrees_fail token _

theorem agrees_enter (ih : AgreesAt μ host fuel) {c c' : Closure} {vs vs' : List Value}
    {p p' : Token} (hc : ClosureMirrors μ w c c')
    (values : List.Forall₂ (ValueMirrors μ w) vs vs') (token : μ.token p p') :
    Agrees μ w here (enter host (fuel + 1) c vs p) (enter host (fuel + 1) c' vs' p')
      (ValueMirrors μ) := by
  obtain ⟨id, declaration, scope, isInitializer⟩ := c
  obtain ⟨id', declaration', scope', isInitializer'⟩ := c'
  obtain ⟨_, rfl, rfl, env, views, mirrors⟩ := hc
  cases mirrors with
  | mk k same params body =>
    rw [enter, enter]
    apply agrees_bind (agrees_child views k (argumentFrame_mirrors params values))
    intro w₁ inside inside' more₁ opened
    obtain ⟨rfl, views₁⟩ := opened
    apply agrees_bind (agrees_within (ih.executeAll views₁ body))
    intro w₂ flow flow' more₂ flows
    -- an initializer gives its `this`, whatever its body has returned
    by_cases initializes : isInitializer = true
    · simp only [initializes, if_true]
      exact agrees_readAt (views.later (more₁.trans more₂)) (μ.self_token token)
        fun _ _ => μ.names_this
    · simp only [initializes]
      exact agrees_pure flows.result

theorem agrees_instantiate (ih : AgreesAt μ host fuel) {c c' : Class} {vs vs' : List Value}
    {p p' : Token} (hc : ClassMirrors μ w c c')
    (values : List.Forall₂ (ValueMirrors μ w) vs vs') (token : μ.token p p') :
    Agrees μ w here (instantiate host (fuel + 1) c vs p) (instantiate host (fuel + 1) c' vs' p')
      (ValueMirrors μ) := by
  rw [instantiate, instantiate]
  apply agrees_bind (agrees_newInstance hc)
  intro w₁ o o' more₁ made
  obtain ⟨id, rfl, rfl, hc₁⟩ := made
  have found : Option.Rel (MethodMirrors μ w₁) o.ofClass.initializer? o'.ofClass.initializer? :=
    hc₁.findMethod initializerName
  generalize o.ofClass.initializer? = f at found ⊢
  generalize o'.ofClass.initializer? = f' at found ⊢
  cases found with
  | none => exact agrees_pure (.object id hc₁)
  | some hmethod =>
    apply agrees_bind (agrees_bindMethod hmethod (.object id hc₁))
    intro w₂ bound bound' more₂ hbound
    apply agrees_bind (ih.enter hbound (valuesMirror_grow (more₁.trans more₂) values) token)
    intro w₃ _ _ more₃ _
    exact agrees_pure (.object id (hc₁.later (more₂.trans more₃)))

theorem superclassToken_mirrors {t t' : Token} (token : μ.token t t') {e e' : Expr}
    (h : ExprMirrors μ env e e') : μ.token (superclassToken t e) (superclassToken t' e') := by
  cases h with
  | var refers => exact refers.1
  | _ => exact token

theorem agrees_execute (ih : AgreesAt μ host fuel) {s s' : Stmt} (views : Views w here env)
    (mirrors : StmtMirrors μ env s s') :
    Agrees μ w here (execute host (fuel + 1) s) (execute host (fuel + 1) s')
      (FlowMirrors μ) := by
  -- what is done after the effect of a statement
  have next : ∀ (w' : List κ) (_ _ : Unit), Later w w' → True →
      Agrees μ w' here (pure .next : Run Flow) (pure .next) (FlowMirrors μ) :=
    fun _ _ _ _ _ => agrees_pure .next
  cases mirrors with
  | expression value =>
    rw [execute, execute]
    apply agrees_bind (ih.evaluate views value)
    intro w' _ _ _ _
    exact agrees_pure .next
  | print token value =>
    rw [execute, execute]
    apply agrees_bind (ih.evaluate views value)
    intro w' v v' more hv
    rw [hv.text_eq]
    apply agrees_bind (agrees_printLine token _)
    intro w'' _ _ _ _
    exact agrees_pure .next
  | varDecl declares initializer =>
    cases initializer with
    | none =>
      rw [execute, execute]
      exact agrees_bind (agrees_define views declares .nil) next
    | some value =>
      rw [execute, execute]
      apply agrees_bind (ih.evaluate views value)
      intro w' v v' more hv
      apply agrees_bind (agrees_define (views.later more) declares hv)
      intro w'' _ _ _ _
      exact agrees_pure .next
  | block k body =>
    rw [execute, execute]
    refine agrees_get fun m m' scope scope' => ?_
    rw [scope, scope']
    apply agrees_bind (agrees_child views k (frameMirrors_empty k))
    intro w' inside inside' _ opened
    obtain ⟨rfl, views'⟩ := opened
    exact agrees_within (ih.executeAll views' body)
  | ifThen condition thenBranch =>
    rw [execute, execute]
    apply agrees_bind (ih.evaluate views condition)
    intro w' c c' more hc
    rw [hc.isTruthy_eq]
    by_cases holds : c'.isTruthy = true
    · rw [if_pos holds, if_pos holds]
      exact ih.execute (views.later more) thenBranch
    · rw [if_neg holds, if_neg holds]
      exact agrees_pure .next
  | ifElse condition thenBranch elseBranch =>
    rw [execute, execute]
    apply agrees_bind (ih.evaluate views condition)
    intro w' c c' more hc
    rw [hc.isTruthy_eq]
    by_cases holds : c'.isTruthy = true
    · rw [if_pos holds, if_pos holds]
      exact ih.execute (views.later more) thenBranch
    · rw [if_neg holds, if_neg holds]
      exact ih.execute (views.later more) elseBranch
  | whileLoop condition body =>
    rw [execute, execute]
    exact ih.loop views condition body
  | funDecl declares function =>
    rw [execute, execute]
    exact agrees_bind (agrees_declareFunction views declares function) next
  | ret _ value =>
    cases value with
    | none => exact agrees_pure (.returned .nil)
    | some value =>
      rw [execute, execute]
      apply agrees_bind (ih.evaluate views value)
      intro w' v v' _ hv
      exact agrees_pure (.returned hv)
  | classDecl declares lexeme superclass methods =>
    cases superclass with
    | none =>
      rw [execute, execute]
      exact agrees_bind (agrees_declareClass views declares lexeme .none methods) next
    | some parent =>
      rw [execute, execute]
      apply agrees_bind (ih.evaluate views parent)
      intro w₁ v v' more₁ hv
      apply agrees_bind (agrees_asClass (superclassToken_mirrors declares.1 parent) hv)
      intro w₂ c c' more₂ hc
      have views₂ := views.later (more₁.trans more₂)
      apply agrees_bind (agrees_declareClass views₂ declares lexeme (.some hc) methods)
      intro w₃ _ _ _ _
      exact agrees_pure .next

theorem agrees_executeAll (ih : AgreesAt μ host fuel) {ss ss' : List Stmt}
    (views : Views w here env) (mirrors : StmtsMirror μ env ss ss') :
    Agrees μ w here (executeAll host (fuel + 1) ss) (executeAll host (fuel + 1) ss')
      (FlowMirrors μ) := by
  cases mirrors with
  | nil => exact agrees_pure .next
  | cons first rest =>
    rw [executeAll, executeAll]
    apply agrees_bind (ih.execute views first)
    intro w' flow flow' more flows
    cases flows with
    | next => exact ih.executeAll (views.later more) rest
    | returned hv => exact agrees_pure (.returned hv)

theorem agrees_loop (ih : AgreesAt μ host fuel) {e e' : Expr} {s s' : Stmt}
    (views : Views w here env) (condition : ExprMirrors μ env e e')
    (body : StmtMirrors μ env s s') :
    Agrees μ w here (loop host (fuel + 1) e s) (loop host (fuel + 1) e' s') (FlowMirrors μ) := by
  rw [loop, loop]
  apply agrees_bind (ih.evaluate views condition)
  intro w₁ c c' more₁ hc
  rw [hc.isTruthy_eq]
  by_cases holds : c'.isTruthy = true
  · rw [if_pos holds, if_pos holds]
    apply agrees_bind (ih.execute (views.later more₁) body)
    intro w₂ flow flow' more₂ flows
    cases flows with
    | next => exact ih.loop (views.later (more₁.trans more₂)) condition body
    | returned hv => exact agrees_pure (.returned hv)
  · rw [if_neg holds, if_neg holds]
    exact agrees_pure .next

end

/-- Calls that mirror each other agree, whatever the fuel. -/
theorem agreesAt (discreet : Discreet Alike host)
    (looks : ∀ w v v', ValueMirrors μ w v v' → Alike v v') (fuel : Nat) :
    AgreesAt μ host fuel := by
  -- on the fuel: every call is made with less of it, also the body of a function
  induction fuel with
  | zero =>
    exact ⟨fun _ _ => agrees_starved, fun _ _ => agrees_starved, fun _ _ _ => agrees_starved,
      fun _ _ _ => agrees_starved, fun _ _ _ => agrees_starved, fun _ _ => agrees_starved,
      fun _ _ => agrees_starved, fun _ _ _ => agrees_starved⟩
  | succ fuel ih =>
    exact ⟨agrees_evaluate ih, agrees_evaluateAll ih, agrees_invoke discreet looks ih,
      agrees_enter ih, agrees_instantiate ih, agrees_execute ih, agrees_executeAll ih,
      agrees_loop ih⟩

/-- Programs that mirror each other run in step. -/
theorem agrees_interpret (discreet : Discreet Alike host)
    (looks : ∀ w v v', ValueMirrors μ w v v' → Alike v v') {fuel : Nat} {ss ss' : List Stmt}
    (views : Views w here env) (mirrors : StmtsMirror μ env ss ss') :
    Agrees μ w here (interpret host fuel ss) (interpret host fuel ss') fun _ _ _ => True := by
  induction ss generalizing ss' w with
  | nil =>
    cases mirrors with
    | nil => exact agrees_pure trivial
  | cons s rest ih =>
    cases mirrors with
    | cons first others =>
      rw [interpret, interpret]
      apply agrees_bind ((agreesAt discreet looks fuel).execute views first)
      intro w' _ _ more _
      exact ih (views.later more) others

end Lox.Evaluation
