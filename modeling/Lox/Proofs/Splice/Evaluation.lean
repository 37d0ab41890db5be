import Lox.Proofs.Splice.Operations

/-! # An additional scope changes nothing

  Programs that correspond, started on machines that do, run in step with the same fuel: they
  print the same, stop for the same reason, and leave machines that correspond
  (`coincidesAt`). The host has to play along: it must not tell apart values that correspond
  (`Discreet`).
-/

namespace Lox.Evaluation

variable {ν : Notes} {w : World} {seam : Seam} {here here' : Scope} {host : Host}

/-- Whether two values correspond in some way. -/
def Spliceable (v v' : Value) : Prop :=
  ∃ ν w, ValueSplices ν w v v'

/-! ### Operators and calls of the host -/

theorem coincides_callHost (discreet : Discreet Spliceable host) (called : Native)
    {vs vs' : List Value} (values : List.Forall₂ (ValueSplices ν w) vs vs') (paren : Token) :
    Coincides ν w here here' (callHost host called vs paren) (callHost host called vs' paren)
      (ValueSplices ν) := by
  apply coincides_bind coincides_countHostCall
  intro w' earlier _ more same
  subst same
  have values' := valuesSplice_later more values
  rcases discreet _ (fun _ _ hv => ⟨ν, w', hv⟩) called vs vs' earlier values' with
    ⟨v, v', run, run', related⟩ | ⟨message, run, run'⟩
  · rw [run, run']
    rcases related with hv | ⟨data, rfl⟩
    · exact coincides_pure hv
    · exact coincides_pure data.splices
  · rw [run, run']
    exact coincides_fail paren _

theorem coincides_applyUnary (operator : Token) {v v' : Value} (hv : ValueSplices ν w v v') :
    Coincides ν w here here' (applyUnary operator v) (applyUnary operator v')
      (ValueSplices ν) := by
  unfold applyUnary
  split
  · cases hv with
    | number x => exact coincides_pure (.number _)
    | _ => exact coincides_fail operator _
  · rw [hv.isTruthy_eq]
    exact coincides_pure (.bool _)
  · exact coincides_fail operator _

theorem coincides_calculate (operator : Token) {a a' b b' : Value}
    (ha : ValueSplices ν w a a') (hb : ValueSplices ν w b b') :
    Coincides ν w here here' (calculate operator a b) (calculate operator a' b')
      (ValueSplices ν) := by
  cases ha with
  | number x =>
    cases hb with
    | number y =>
      unfold calculate
      dsimp only
      cases result : arithmetic? operator.kind x y with
      | some v => exact coincides_pure (arithmetic?_data result).splices
      | none => exact coincides_fail operator _
    | _ => exact coincides_fail operator _
  | _ => exact coincides_fail operator _

theorem coincides_add (operator : Token) {a a' b b' : Value}
    (ha : ValueSplices ν w a a') (hb : ValueSplices ν w b b') :
    Coincides ν w here here' (add operator a b) (add operator a' b') (ValueSplices ν) := by
  cases ha with
  | number x =>
    cases hb with
    | number y => exact coincides_pure (.number _)
    | _ => exact coincides_fail operator _
  | string s =>
    cases hb with
    | string t => exact coincides_pure (.string _)
    | _ => exact coincides_fail operator _
  | _ => exact coincides_fail operator _

theorem coincides_applyBinary (operator : Token) {a a' b b' : Value}
    (ha : ValueSplices ν w a a') (hb : ValueSplices ν w b b') :
    Coincides ν w here here' (applyBinary operator a b) (applyBinary operator a' b')
      (ValueSplices ν) := by
  unfold applyBinary
  split
  · exact coincides_add operator ha hb
  · rw [ha.equals_eq hb]
    exact coincides_pure (.bool _)
  · rw [ha.equals_eq hb]
    exact coincides_pure (.bool _)
  · exact coincides_calculate operator ha hb

theorem coincides_checkArity (paren : Token) (expected actual : Nat) :
    Coincides ν w here here' (checkArity paren expected actual)
      (checkArity paren expected actual) fun _ _ _ => True := by
  unfold checkArity
  split
  · exact coincides_pure trivial
  · exact coincides_fail paren _

/-! ### Declarations -/

theorem coincides_declareFunction (scopes : Spliced w seam here here') (inside : seam ≠ some 0)
    {f f' : FunctionDecl} (hf : FunctionSplices ν seam f f') :
    Coincides ν w here here' (declareFunction f) (declareFunction f') fun _ _ _ => True := by
  refine coincides_get fun m m' scope scope' => ?_
  rw [scope, scope', ← hf.name_eq]
  apply coincides_bind (coincides_newClosure id inside scopes hf false)
  intro w' c c' more hc
  exact coincides_define (scopes.later more) inside f.name.lexeme (.function hc)

theorem coincides_methodTable {scope scope' : Scope} {fs fs' : List FunctionDecl} :
    ∀ {w : World} {b b' : Bindings Closure}, Spliced w seam scope scope' →
      MethodsSplice ν seam.inner fs fs' → Namewise (MethodSplices ν w) b b' →
      Coincides ν w here here' (methodTable scope fs b) (methodTable scope' fs' b') fun w' =>
        Namewise (MethodSplices ν w') := by
  induction fs generalizing fs' with
  | nil =>
    intro w b b' _ methods table
    cases methods with
    | nil => exact coincides_pure table
  | cons f fs ih =>
    intro w b b' scopes methods table
    cases methods with
    | @cons _ _ f' _ fs' hf hfs =>
      have initializer : f.isInitializer = f'.isInitializer := by
        unfold FunctionDecl.isInitializer
        rw [hf.name_eq]
      rw [methodTable, methodTable, ← initializer, ← hf.name_eq]
      apply coincides_bind
        (coincides_newClosure Seam.inner seam.inner_ne scopes hf f.isInitializer)
      intro w' c c' more hc
      have table' := table.imp fun _ _ method => RoutineSplices.later more method
      exact ih (scopes.later more) hfs (table'.set f.name.lexeme hc)

/-- The superclasses of two classes, if they have any. -/
abbrev ParentsSplice (ν : Notes) (w : World) : Option Class → Option Class → Prop :=
  Option.Rel (ClassSplices ν w)

theorem ParentsSplice.later {w' : World} (more : Later w w') {o o' : Option Class}
    (h : ParentsSplice ν w o o') : ParentsSplice ν w' o o' := by
  cases h with
  | some hc => exact .some (hc.later more)
  | none => exact .none

theorem coincides_methodScope (scopes : Spliced w seam here here') {o o' : Option Class}
    (parents : ParentsSplice ν w o o') :
    Coincides ν w here here' (methodScope o) (methodScope o') fun w' =>
      Spliced w' (if o.isSome then seam.inner else seam) := by
  cases parents with
  | none =>
    refine coincides_get fun m m' scope scope' => ?_
    rw [scope, scope']
    exact coincides_pure scopes
  | some hc =>
    refine coincides_get fun m m' scope scope' => ?_
    rw [scope, scope']
    have frame : FrameSplices ν w (.single "super" _) (.single "super" _) :=
      namewise_empty.set "super" (.classObject hc)
    exact coincides_child scopes frame

theorem coincides_declareClass (scopes : Spliced w seam here here') (inside : seam ≠ some 0)
    (name : Token) {o o' : Option Class} (parents : ParentsSplice ν w o o')
    {fs fs' : List FunctionDecl} (methods : MethodsSplice ν (seam.inClass o.isSome) fs fs') :
    Coincides ν w here here' (declareClass name o fs) (declareClass name o' fs')
      fun _ _ _ => True := by
  have declares : Coincides ν w here here' (declaring name o fs (Run.define name.lexeme))
      (declaring name o' fs' (Run.define name.lexeme)) fun _ _ _ => True := by
    unfold declaring
    apply coincides_bind (coincides_define scopes inside name.lexeme .nil)
    intro w₁ _ _ more₁ _
    apply coincides_bind (coincides_methodScope (scopes.later more₁) (parents.later more₁))
    intro w₂ scope scope' more₂ scopes₂
    apply coincides_bind (coincides_methodTable scopes₂ methods namewise_empty)
    intro w₃ table table' more₃ htable
    have identity : Coincides ν w₃ here here' Run.newIdentity Run.newIdentity
        fun _ i i' => i = i' :=
      fun _ _ splices => ⟨w₃, .refl w₃, splices.ofSerial, splices.serial⟩
    apply coincides_bind identity
    intro w₄ i i' more₄ same
    subst same
    have body : BodySplices ν w₄ ⟨i, name.lexeme, table⟩ ⟨i, name.lexeme, table'⟩ :=
      ⟨rfl, rfl, htable.imp fun _ _ method => RoutineSplices.later more₄ method⟩
    have more : Later w w₄ := more₁.trans (more₂.trans (more₃.trans more₄))
    have made : ValueSplices ν w₄ (.classObject (.make ⟨i, name.lexeme, table⟩ o))
        (.classObject (.make ⟨i, name.lexeme, table'⟩ o')) := by
      cases parents.later more with
      | none => exact .classObject (.base body)
      | some hc => exact .classObject (.derived body hc)
    exact coincides_define (scopes.later more) inside name.lexeme made
  -- where the frame in front is there, the last step is to define the name again
  intro m m' splices
  obtain ⟨frame, frame', outer, outer', rfl, rfl, mark⟩ := scopes.front inside
  obtain ⟨there, _⟩ := List.getElem?_eq_some_iff.mp mark
  rw [declareClass_eq splices.scope (splices.size ▸ there),
    declareClass_eq splices.scope' (splices.below _ _ mark)]
  exact declares m m' splices

/-! ### Calls of the evaluator -/

/-- Control leaves two statements in the same way. -/
inductive FlowSplices (ν : Notes) (w : World) : Flow → Flow → Prop where
  | next : FlowSplices ν w .next .next
  | returned {v v' : Value} : ValueSplices ν w v v' → FlowSplices ν w (.returned v) (.returned v')

theorem FlowSplices.result {f f' : Flow} (h : FlowSplices ν w f f') :
    ValueSplices ν w f.result f'.result := by
  cases h with
  | next => exact .nil
  | returned hv => exact hv

/-- Every call of the evaluator with some fuel does the same as the one that corresponds to it,
    in scopes that have the seam of the program text. -/
structure CoincidesAt (ν : Notes) (host : Host) (fuel : Nat) : Prop where
  evaluate : ∀ {w seam here here' e e'}, Spliced w seam here here' → ExprSplices ν seam e e' →
    Coincides ν w here here' (evaluate host fuel e) (evaluate host fuel e') (ValueSplices ν)
  evaluateAll : ∀ {w seam here here' es es'}, Spliced w seam here here' →
    ExprsSplice ν seam es es' →
    Coincides ν w here here' (evaluateAll host fuel es) (evaluateAll host fuel es') fun w' =>
      List.Forall₂ (ValueSplices ν w')
  invoke : ∀ {w here here' f f' vs vs'}, ValueSplices ν w f f' →
    List.Forall₂ (ValueSplices ν w) vs vs' → ∀ paren,
    Coincides ν w here here' (invoke host fuel f vs paren) (invoke host fuel f' vs' paren)
      (ValueSplices ν)
  enter : ∀ {w here here' c c' vs vs'}, ClosureSplices ν w c c' →
    List.Forall₂ (ValueSplices ν w) vs vs' → ∀ paren,
    Coincides ν w here here' (enter host fuel c vs paren) (enter host fuel c' vs' paren)
      (ValueSplices ν)
  instantiate : ∀ {w here here' c c' vs vs'}, ClassSplices ν w c c' →
    List.Forall₂ (ValueSplices ν w) vs vs' → ∀ paren,
    Coincides ν w here here' (instantiate host fuel c vs paren)
      (instantiate host fuel c' vs' paren) (ValueSplices ν)
  execute : ∀ {w seam here here' s s'}, Spliced w seam here here' → StmtSplices ν seam s s' →
    Coincides ν w here here' (execute host fuel s) (execute host fuel s') (FlowSplices ν)
  executeAll : ∀ {w seam here here' ss ss'}, Spliced w seam here here' →
    StmtsSplice ν seam ss ss' →
    Coincides ν w here here' (executeAll host fuel ss) (executeAll host fuel ss')
      (FlowSplices ν)
  loop : ∀ {w seam here here' e e' s s'}, Spliced w seam here here' → ExprSplices ν seam e e' →
    StmtSplices ν seam s s' →
    Coincides ν w here here' (loop host fuel e s) (loop host fuel e' s') (FlowSplices ν)

section

variable {fuel : Nat}

theorem coincides_evaluate (ih : CoincidesAt ν host fuel) {e e' : Expr}
    (scopes : Spliced w seam here here') (splices : ExprSplices ν seam e e') :
    Coincides ν w here here' (evaluate host (fuel + 1) e) (evaluate host (fuel + 1) e')
      (ValueSplices ν) := by
  cases splices with
  | literal value =>
    apply coincides_pure
    cases value <;> constructor
  | grouping inner => exact ih.evaluate scopes inner
  | unary right =>
    rw [evaluate, evaluate]
    apply coincides_bind (ih.evaluate scopes right)
    intro w' v v' _ hv
    exact coincides_applyUnary _ hv
  | binary left right =>
    rw [evaluate, evaluate]
    apply coincides_bind (ih.evaluate scopes left)
    intro w₁ a a' more₁ ha
    apply coincides_bind (ih.evaluate (scopes.later more₁) right)
    intro w₂ b b' more₂ hb
    exact coincides_applyBinary _ (ha.later more₂) hb
  | @logical o a a' b b' left right =>
    rw [evaluate, evaluate]
    apply coincides_bind (ih.evaluate scopes left)
    intro w₁ a a' more₁ ha
    have decided : decides o a = decides o a' := by
      unfold decides
      rw [ha.isTruthy_eq]
    rw [decided]
    split
    · exact coincides_pure ha
    · exact ih.evaluate (scopes.later more₁) right
  | var refers => exact coincides_readVariable scopes refers _
  | assign refers value =>
    rw [evaluate, evaluate]
    apply coincides_bind (ih.evaluate scopes value)
    intro w₁ v v' more₁ hv
    apply coincides_bind (coincides_assignVariable (scopes.later more₁) refers _ hv)
    intro w₂ _ _ more₂ _
    exact coincides_pure (hv.later more₂)
  | call callee arguments =>
    rw [evaluate, evaluate]
    apply coincides_bind (ih.evaluate scopes callee)
    intro w₁ f f' more₁ hf
    apply coincides_bind (ih.evaluateAll (scopes.later more₁) arguments)
    intro w₂ vs vs' more₂ values
    exact ih.invoke (hf.later more₂) values _
  | get object =>
    rw [evaluate, evaluate]
    apply coincides_bind (ih.evaluate scopes object)
    intro w' v v' _ hv
    cases hv with
    | object id hc => exact coincides_property (.object id hc) _
    | _ => exact coincides_fail _ _
  | set object value =>
    rw [evaluate, evaluate]
    apply coincides_bind (ih.evaluate scopes object)
    intro w₁ v v' more₁ hv
    cases hv with
    | object id hc =>
      apply coincides_bind (ih.evaluate (scopes.later more₁) value)
      intro w₂ u u' more₂ hu
      apply coincides_bind (coincides_setField id _ hu)
      intro w₃ _ _ more₃ _
      exact coincides_pure (hu.later more₃)
    | _ => exact coincides_fail _ _
  | thisRef refers => exact coincides_readVariable scopes refers _
  | superRef refers => exact coincides_superMethod scopes refers _ _

theorem coincides_evaluateAll (ih : CoincidesAt ν host fuel) {es es' : List Expr}
    (scopes : Spliced w seam here here') (splices : ExprsSplice ν seam es es') :
    Coincides ν w here here' (evaluateAll host (fuel + 1) es) (evaluateAll host (fuel + 1) es')
      fun w' => List.Forall₂ (ValueSplices ν w') := by
  cases splices with
  | nil => exact coincides_pure .nil
  | cons first rest =>
    rw [evaluateAll, evaluateAll]
    apply coincides_bind (ih.evaluate scopes first)
    intro w₁ v v' more₁ hv
    apply coincides_bind (ih.evaluateAll (scopes.later more₁) rest)
    intro w₂ vs vs' more₂ values
    exact coincides_pure (.cons (hv.later more₂) values)

theorem coincides_invoke (discreet : Discreet Spliceable host) (ih : CoincidesAt ν host fuel)
    {f f' : Value} {vs vs' : List Value} (hf : ValueSplices ν w f f')
    (values : List.Forall₂ (ValueSplices ν w) vs vs') (paren : Token) :
    Coincides ν w here here' (invoke host (fuel + 1) f vs paren)
      (invoke host (fuel + 1) f' vs' paren) (ValueSplices ν) := by
  cases hf with
  | function hc =>
    rw [invoke, invoke, RoutineSplices.arity_eq hc, values.length_eq]
    apply coincides_bind (coincides_checkArity paren _ _)
    intro w' _ _ more _
    exact ih.enter (RoutineSplices.later more hc) (valuesSplice_later more values) paren
  | native called =>
    rw [invoke, invoke, values.length_eq]
    apply coincides_bind (coincides_checkArity paren _ _)
    intro w' _ _ more _
    exact coincides_callHost discreet called (valuesSplice_later more values) paren
  | classObject hc =>
    rw [invoke, invoke, hc.arity_eq, values.length_eq]
    apply coincides_bind (coincides_checkArity paren _ _)
    intro w' _ _ more _
    exact ih.instantiate (hc.later more) (valuesSplice_later more values) paren
  | _ => exact coincides_fail paren _

theorem coincides_enter (ih : CoincidesAt ν host fuel) {c c' : Closure} {vs vs' : List Value}
    (hc : ClosureSplices ν w c c') (values : List.Forall₂ (ValueSplices ν w) vs vs')
    (paren : Token) :
    Coincides ν w here here' (enter host (fuel + 1) c vs paren)
      (enter host (fuel + 1) c' vs' paren) (ValueSplices ν) := by
  obtain ⟨id, declaration, scope, isInitializer⟩ := c
  obtain ⟨id', declaration', scope', isInitializer'⟩ := c'
  obtain ⟨_, rfl, seam, inside, scopes, splices⟩ := hc
  cases splices with
  | mk body =>
    rw [enter, enter]
    -- the body is one scope further in than the place of the declaration, and so is the seam
    apply coincides_bind (coincides_child scopes (argumentFrame_splices _ values))
    intro w₁ inner inner' more₁ scopes₁
    apply coincides_bind (coincides_within (ih.executeAll scopes₁ body))
    intro w₂ flow flow' more₂ flows
    split
    · -- the `this` of an initializer is in the first scope that it keeps
      exact coincides_readAt (scopes.later (more₁.trans more₂)) (Seam.shifts_zero inside) _
    · exact coincides_pure flows.result

theorem coincides_instantiate (ih : CoincidesAt ν host fuel) {c c' : Class}
    {vs vs' : List Value} (hc : ClassSplices ν w c c')
    (values : List.Forall₂ (ValueSplices ν w) vs vs') (paren : Token) :
    Coincides ν w here here' (instantiate host (fuel + 1) c vs paren)
      (instantiate host (fuel + 1) c' vs' paren) (ValueSplices ν) := by
  rw [instantiate, instantiate]
  apply coincides_bind (coincides_newInstance hc)
  intro w₁ o o' more₁ made
  obtain ⟨id, rfl, rfl, hc₁⟩ := made
  have found : Option.Rel (MethodSplices ν w₁) o.ofClass.initializer? o'.ofClass.initializer? :=
    hc₁.findMethod initializerName
  generalize o.ofClass.initializer? = f at found ⊢
  generalize o'.ofClass.initializer? = f' at found ⊢
  cases found with
  | none => exact coincides_pure (.object id hc₁)
  | some hmethod =>
    apply coincides_bind (coincides_bindMethod hmethod (.object id hc₁))
    intro w₂ bound bound' more₂ hbound
    apply coincides_bind (ih.enter hbound (valuesSplice_later (more₁.trans more₂) values) paren)
    intro w₃ _ _ more₃ _
    exact coincides_pure (.object id (hc₁.later (more₂.trans more₃)))

theorem superclassToken_splices (name : Token) {e e' : Expr} (h : ExprSplices ν seam e e') :
    superclassToken name e = superclassToken name e' := by
  cases h <;> rfl

theorem execute_block_eq (body : List Stmt) :
    execute host (fuel + 1) (.block body) = inNewScope (executeAll host fuel body) := by
  rw [execute]
  rfl

theorem coincides_execute (ih : CoincidesAt ν host fuel) {s s' : Stmt}
    (scopes : Spliced w seam here here') (splices : StmtSplices ν seam s s') :
    Coincides ν w here here' (execute host (fuel + 1) s) (execute host (fuel + 1) s')
      (FlowSplices ν) := by
  -- what is done after the effect of a statement
  have next : ∀ (w' : World) (_ _ : Unit), Later w w' → True →
      Coincides ν w' here here' (pure .next : Run Flow) (pure .next) (FlowSplices ν) :=
    fun _ _ _ _ _ => coincides_pure .next
  cases splices with
  | expression value =>
    rw [execute, execute]
    apply coincides_bind (ih.evaluate scopes value)
    intro w' _ _ _ _
    exact coincides_pure .next
  | print value =>
    rw [execute, execute]
    apply coincides_bind (ih.evaluate scopes value)
    intro w' v v' more hv
    rw [hv.text_eq]
    apply coincides_bind (coincides_printLine _ _)
    intro w'' _ _ _ _
    exact coincides_pure .next
  | varDecl inside initializer =>
    cases initializer with
    | none =>
      rw [execute]
      exact coincides_bind (coincides_define scopes inside _ .nil) next
    | some value =>
      rw [execute, execute]
      apply coincides_bind (ih.evaluate scopes value)
      intro w' v v' more hv
      apply coincides_bind (coincides_define (scopes.later more) inside _ hv)
      intro w'' _ _ _ _
      exact coincides_pure .next
  | block body =>
    rw [execute_block_eq, execute_block_eq]
    exact coincides_inNewScope scopes fun _ _ _ _ inner => ih.executeAll inner body
  | ifThen condition thenBranch =>
    rw [execute, execute]
    apply coincides_bind (ih.evaluate scopes condition)
    intro w' c c' more hc
    rw [hc.isTruthy_eq]
    split
    · exact ih.execute (scopes.later more) thenBranch
    · exact coincides_pure .next
  | ifElse condition thenBranch elseBranch =>
    rw [execute, execute]
    apply coincides_bind (ih.evaluate scopes condition)
    intro w' c c' more hc
    rw [hc.isTruthy_eq]
    split
    · exact ih.execute (scopes.later more) thenBranch
    · exact ih.execute (scopes.later more) elseBranch
  | whileLoop condition body =>
    rw [execute, execute]
    exact ih.loop scopes condition body
  | funDecl inside function =>
    rw [execute, execute]
    exact coincides_bind (coincides_declareFunction scopes inside function) next
  | ret value =>
    cases value with
    | none => exact coincides_pure (.returned .nil)
    | some value =>
      rw [execute, execute]
      apply coincides_bind (ih.evaluate scopes value)
      intro w' v v' _ hv
      exact coincides_pure (.returned hv)
  | classDecl inside superclass methods =>
    cases superclass with
    | none =>
      rw [execute, execute]
      exact coincides_bind (coincides_declareClass scopes inside _ .none methods) next
    | some parent =>
      rw [execute, execute, ← superclassToken_splices _ parent]
      apply coincides_bind (ih.evaluate scopes parent)
      intro w₁ v v' more₁ hv
      apply coincides_bind (coincides_asClass _ hv)
      intro w₂ c c' more₂ hc
      have scopes₂ := scopes.later (more₁.trans more₂)
      apply coincides_bind (coincides_declareClass scopes₂ inside _ (.some hc) methods)
      intro w₃ _ _ _ _
      exact coincides_pure .next

theorem coincides_executeAll (ih : CoincidesAt ν host fuel) {ss ss' : List Stmt}
    (scopes : Spliced w seam here here') (splices : StmtsSplice ν seam ss ss') :
    Coincides ν w here here' (executeAll host (fuel + 1) ss) (executeAll host (fuel + 1) ss')
      (FlowSplices ν) := by
  cases splices with
  | nil => exact coincides_pure .next
  | cons first rest =>
    rw [executeAll, executeAll]
    apply coincides_bind (ih.execute scopes first)
    intro w' flow flow' more flows
    cases flows with
    | next => exact ih.executeAll (scopes.later more) rest
    | returned hv => exact coincides_pure (.returned hv)

theorem coincides_loop (ih : CoincidesAt ν host fuel) {e e' : Expr} {s s' : Stmt}
    (scopes : Spliced w seam here here') (condition : ExprSplices ν seam e e')
    (body : StmtSplices ν seam s s') :
    Coincides ν w here here' (loop host (fuel + 1) e s) (loop host (fuel + 1) e' s')
      (FlowSplices ν) := by
  rw [loop, loop]
  apply coincides_bind (ih.evaluate scopes condition)
  intro w₁ c c' more₁ hc
  rw [hc.isTruthy_eq]
  split
  · apply coincides_bind (ih.execute (scopes.later more₁) body)
    intro w₂ flow flow' more₂ flows
    cases flows with
    | next => exact ih.loop (scopes.later (more₁.trans more₂)) condition body
    | returned hv => exact coincides_pure (.returned hv)
  · exact coincides_pure .next

end

/-- Calls that correspond do the same, whatever the fuel. -/
theorem coincidesAt (discreet : Discreet Spliceable host) (ν : Notes) (fuel : Nat) :
    CoincidesAt ν host fuel := by
  -- on the fuel: every call is made with less of it, also the body of a function
  induction fuel with
  | zero =>
    exact ⟨fun _ _ => coincides_throw _, fun _ _ => coincides_throw _,
      fun _ _ _ => coincides_throw _, fun _ _ _ => coincides_throw _,
      fun _ _ _ => coincides_throw _, fun _ _ => coincides_throw _,
      fun _ _ => coincides_throw _, fun _ _ _ => coincides_throw _⟩
  | succ fuel ih =>
    exact ⟨coincides_evaluate ih, coincides_evaluateAll ih, coincides_invoke discreet ih,
      coincides_enter ih, coincides_instantiate ih, coincides_execute ih,
      coincides_executeAll ih, coincides_loop ih⟩

end Lox.Evaluation
