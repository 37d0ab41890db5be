import Lox.Proofs.Grammar.Lines
import Lox.Proofs.Mirror.Evaluation

/-! # Copies of programs

  A copy of a program differs from it in the identities of nodes and in the lines of tokens.
  The same distances are found for its references, so that, where the distances of both are
  noted, a program and its copy mirror each other (`copy_stmts`).
-/

namespace Lox

/-! ### Trees of a known shape -/

namespace Expr

variable {e : Expr}

theorem bare_eq_literal {value : Literal} (h : e.bare = .literal value) :
    e = .literal value := by
  cases e <;> simp_all [bare]

theorem bare_eq_grouping {a : Expr} (h : e.bare = .grouping a) :
    ∃ a', e = .grouping a' ∧ a'.bare = a := by
  cases e <;> simp_all [bare]

theorem bare_eq_unary {o : Token} {a : Expr} (h : e.bare = .unary o a) :
    ∃ a', e = .unary o a' ∧ a'.bare = a := by
  cases e <;> simp_all [bare]

theorem bare_eq_binary {a b : Expr} {o : Token} (h : e.bare = .binary a o b) :
    ∃ a' b', e = .binary a' o b' ∧ a'.bare = a ∧ b'.bare = b := by
  cases e <;> simp_all [bare]

theorem bare_eq_logical {a b : Expr} {o : Token} (h : e.bare = .logical a o b) :
    ∃ a' b', e = .logical a' o b' ∧ a'.bare = a ∧ b'.bare = b := by
  cases e <;> simp_all [bare]

theorem bare_eq_var {n : NodeId} {t : Token} (h : e.bare = .var n t) : ∃ n', e = .var n' t := by
  cases e <;> simp_all [bare]

theorem bare_eq_assign {n : NodeId} {t : Token} {a : Expr} (h : e.bare = .assign n t a) :
    ∃ n' a', e = .assign n' t a' ∧ a'.bare = a := by
  cases e <;> simp_all [bare]

theorem bare_eq_call {a : Expr} {p : Token} {as : List Expr} (h : e.bare = .call a p as) :
    ∃ a' as', e = .call a' p as' ∧ a'.bare = a ∧ bareAll as' = as := by
  cases e <;> simp_all [bare]

theorem bare_eq_get {a : Expr} {t : Token} (h : e.bare = .get a t) :
    ∃ a', e = .get a' t ∧ a'.bare = a := by
  cases e <;> simp_all [bare]

theorem bare_eq_set {a b : Expr} {t : Token} (h : e.bare = .set a t b) :
    ∃ a' b', e = .set a' t b' ∧ a'.bare = a ∧ b'.bare = b := by
  cases e <;> simp_all [bare]

theorem bare_eq_thisRef {n : NodeId} {t : Token} (h : e.bare = .thisRef n t) :
    ∃ n', e = .thisRef n' t := by
  cases e <;> simp_all [bare]

theorem bare_eq_superRef {n : NodeId} {t u : Token} (h : e.bare = .superRef n t u) :
    ∃ n', e = .superRef n' t u := by
  cases e <;> simp_all [bare]

theorem bareAll_eq_nil {es : List Expr} (h : bareAll es = []) : es = [] := by
  cases es <;> simp_all [bareAll]

theorem bareAll_eq_cons {a : Expr} {as es : List Expr} (h : bareAll es = a :: as) :
    ∃ a' as', es = a' :: as' ∧ a'.bare = a ∧ bareAll as' = as := by
  cases es <;> simp_all [bareAll]

end Expr

namespace Stmt

variable {s : Stmt}

theorem bare_eq_expression {a : Expr} (h : s.bare = .expression a) :
    ∃ a', s = .expression a' ∧ a'.bare = a := by
  cases s <;> simp_all [bare]

theorem bare_eq_print {t : Token} {a : Expr} (h : s.bare = .print t a) :
    ∃ a', s = .print t a' ∧ a'.bare = a := by
  cases s <;> simp_all [bare]

theorem bare_eq_varDecl {t : Token} {o : Option Expr} (h : s.bare = .varDecl t o) :
    ∃ o', s = .varDecl t o' ∧ o'.map Expr.bare = o := by
  cases s <;> simp_all [bare]

theorem bare_eq_block {ss : List Stmt} (h : s.bare = .block ss) :
    ∃ ss', s = .block ss' ∧ bareAll ss' = ss := by
  cases s <;> simp_all [bare]

theorem bare_eq_ifElse {a : Expr} {b : Stmt} {o : Option Stmt} (h : s.bare = .ifElse a b o) :
    ∃ a' b' o', s = .ifElse a' b' o' ∧ a'.bare = a ∧ b'.bare = b ∧ bareElse o' = o := by
  cases s <;> simp_all [bare]

theorem bare_eq_whileLoop {a : Expr} {b : Stmt} (h : s.bare = .whileLoop a b) :
    ∃ a' b', s = .whileLoop a' b' ∧ a'.bare = a ∧ b'.bare = b := by
  cases s <;> simp_all [bare]

theorem bare_eq_funDecl {f : FunctionDecl} (h : s.bare = .funDecl f) :
    ∃ f', s = .funDecl f' ∧ f'.bare = f := by
  cases s <;> simp_all [bare]

theorem bare_eq_ret {t : Token} {o : Option Expr} (h : s.bare = .ret t o) :
    ∃ o', s = .ret t o' ∧ o'.map Expr.bare = o := by
  cases s <;> simp_all [bare]

theorem bare_eq_classDecl {t : Token} {o : Option Expr} {fs : List FunctionDecl}
    (h : s.bare = .classDecl t o fs) : ∃ o' fs', s = .classDecl t o' fs' ∧
      o'.map Expr.bare = o ∧ FunctionDecl.bareAll fs' = fs := by
  cases s <;> simp_all [bare]

theorem bareAll_eq_nil {ss : List Stmt} (h : bareAll ss = []) : ss = [] := by
  cases ss <;> simp_all [bareAll]

theorem bareAll_eq_cons {a : Stmt} {as ss : List Stmt} (h : bareAll ss = a :: as) :
    ∃ a' as', ss = a' :: as' ∧ a'.bare = a ∧ bareAll as' = as := by
  cases ss <;> simp_all [bareAll]

end Stmt

namespace FunctionDecl

theorem bareAll_eq_nil {fs : List FunctionDecl} (h : bareAll fs = []) : fs = [] := by
  cases fs <;> simp_all [bareAll]

theorem bareAll_eq_cons {f : FunctionDecl} {fs gs : List FunctionDecl}
    (h : bareAll gs = f :: fs) : ∃ f' fs', gs = f' :: fs' ∧ f'.bare = f ∧ bareAll fs' = fs := by
  cases gs <;> simp_all [bareAll]

end FunctionDecl

/-! ### Tokens of compound trees -/

section

open Grammar Lox.Expr

variable {T : Token → Prop}

theorem kept_mem_layoutAll {t : Token} (es : List Expr) :
    .kept t ∈ layoutAll es ↔ ∃ e ∈ es, .kept t ∈ e.layout := by
  induction es with
  | nil => simp [layoutAll]
  | cons e rest ih =>
    cases rest with
    | nil => simp [layoutAll]
    | cons next rest => simp [layoutAll, ih]

theorem over_grouping {a : Expr} (made : (grouping a).Over T) : a.Over T := by
  simpa [Over, layout, respects] using made

theorem over_unary {o : Token} {a : Expr} (made : (unary o a).Over T) : T o ∧ a.Over T := by
  simp only [Over, layout, respects, Bool.and_eq_true, List.mem_cons, Slot.kept.injEq] at made
  exact ⟨made.2 o (.inl rfl), made.1.2, fun t ht => made.2 t (.inr ht)⟩

theorem over_binary {a b : Expr} {o : Token} (made : (binary a o b).Over T) :
    a.Over T ∧ T o ∧ b.Over T := by
  simp only [Over, layout, respects, Bool.and_eq_true, List.mem_append, List.mem_cons,
    Slot.kept.injEq] at made
  exact ⟨⟨made.1.1.2, fun t ht => made.2 t (.inl ht)⟩, made.2 o (.inr (.inl rfl)), made.1.2,
    fun t ht => made.2 t (.inr (.inr ht))⟩

theorem over_logical {a b : Expr} {o : Token} (made : (logical a o b).Over T) :
    a.Over T ∧ T o ∧ b.Over T := by
  simp only [Over, layout, respects, Bool.and_eq_true, List.mem_append, List.mem_cons,
    Slot.kept.injEq] at made
  exact ⟨⟨made.1.1.2, fun t ht => made.2 t (.inl ht)⟩, made.2 o (.inr (.inl rfl)), made.1.2,
    fun t ht => made.2 t (.inr (.inr ht))⟩

theorem over_var {n : NodeId} {t : Token} (made : (var n t).Over T) : T t :=
  made.2 t (List.mem_singleton_self _)

theorem over_assign {n : NodeId} {t : Token} {a : Expr} (made : (assign n t a).Over T) :
    T t ∧ a.Over T := by
  simp only [Over, layout, respects, Bool.and_eq_true, List.mem_cons, Slot.kept.injEq,
    reduceCtorEq, false_or] at made
  exact ⟨made.2 t (.inl rfl), made.1.2, fun u hu => made.2 u (.inr hu)⟩

theorem allRespect_iff (es : List Expr) :
    allRespect es = true ↔ ∀ e ∈ es, e.respects = true := by
  induction es with
  | nil => simp [allRespect]
  | cons e rest ih => simp [allRespect, ih]

theorem over_call {a : Expr} {p : Token} {as : List Expr} (made : (call a p as).Over T) :
    a.Over T ∧ (∀ e ∈ as, e.Over T) ∧ T p := by
  simp only [Over, layout, respects, Bool.and_eq_true, List.mem_append, List.mem_cons,
    reduceCtorEq, false_or, kept_mem_layoutAll, Slot.kept.injEq, List.not_mem_nil, or_false,
    allRespect_iff] at made
  obtain ⟨⟨⟨⟨⟨_, callee⟩, _⟩, _⟩, arguments⟩, tokens⟩ := made
  exact ⟨⟨callee, fun t ht => tokens t (.inl (.inl ht))⟩,
    fun e he => ⟨arguments e he, fun t ht => tokens t (.inl (.inr ⟨e, he, ht⟩))⟩,
    tokens p (.inr rfl)⟩

theorem over_get {a : Expr} {t : Token} (made : (get a t).Over T) : a.Over T ∧ T t := by
  simp only [Over, layout, respects, Bool.and_eq_true, List.mem_append, List.mem_cons,
    Slot.kept.injEq] at made
  exact ⟨⟨made.1.1.2, fun u hu => made.2 u (.inl hu)⟩, made.2 t (.inr (.inr (.inl rfl)))⟩

theorem over_set {a b : Expr} {t : Token} (made : (set a t b).Over T) :
    a.Over T ∧ T t ∧ b.Over T := by
  simp only [Over, layout, respects, Bool.and_eq_true, List.mem_append, List.mem_cons,
    reduceCtorEq, false_or, Slot.kept.injEq] at made
  exact ⟨⟨made.1.1.1.2, fun u hu => made.2 u (.inl hu)⟩, made.2 t (.inr (.inl rfl)), made.1.2,
    fun u hu => made.2 u (.inr (.inr hu))⟩

theorem over_thisRef {n : NodeId} {t : Token} (made : (thisRef n t).Over T) :
    T t ∧ t.kind = .keyword .thisWord :=
  ⟨made.2 t (List.mem_singleton_self _), beq_iff_eq.mp made.1⟩

theorem over_superRef {n : NodeId} {t u : Token} (made : (superRef n t u).Over T) :
    (T t ∧ t.kind = .keyword .superWord) ∧ T u := by
  simp only [Over, layout, respects, Bool.and_eq_true, beq_iff_eq, List.mem_cons,
    Slot.kept.injEq] at made
  exact ⟨⟨made.2 t (.inl rfl), made.1.1⟩, made.2 u (.inr (.inr (.inl rfl)))⟩

end

namespace Binding

/-! ### What is noted of a program -/

/-- Whether the distances found in a part of a program are those that are noted. -/
def Recorded (N : NodeId → Option Nat → Prop) (F : Findings) : Prop :=
  ∀ r ∈ F.references, N r.node r.hops

/-- Whether nothing is wrong with a part of a program and its distances are noted. -/
def Noted (N : NodeId → Option Nat → Prop) (F : Findings) : Prop :=
  F.errors = [] ∧ Recorded N F

section

variable {N : NodeId → Option Nat → Prop} {F G : Findings}

@[simp] theorem errors_append : (F ++ G).errors = F.errors ++ G.errors := rfl

@[simp] theorem recorded_append : Recorded N (F ++ G) ↔ Recorded N F ∧ Recorded N G :=
  List.forall_mem_append

@[simp] theorem recorded_none : Recorded N .none := fun _ no => nomatch no

@[simp] theorem recorded_errorIf {condition : Bool} {t : Token} {cause : Cause} :
    Recorded N (.errorIf condition t cause) := fun _ no => nomatch no

@[simp] theorem recorded_reference {layers : Layers} {n : NodeId} {t : Token} :
    Recorded N (.reference layers n t) ↔ N n (layers.hops? t) :=
  List.forall_mem_singleton

@[simp] theorem noted_append : Noted N (F ++ G) ↔ Noted N F ∧ Noted N G := by
  simp only [Noted, errors_append, List.append_eq_nil_iff, recorded_append]
  exact and_and_and_comm

@[simp] theorem noted_errorIf {condition : Bool} {t : Token} {cause : Cause} :
    Noted N (.errorIf condition t cause) ↔ condition = false := by
  cases condition <;> simp [Noted, Findings.errorIf, Recorded]

@[simp] theorem noted_reference {layers : Layers} {n : NodeId} {t : Token} :
    Noted N (.reference layers n t) ↔ N n (layers.hops? t) := by
  simp [Noted, Findings.reference, Recorded]

end

/-! ### Distances -/

theorem hops?_cons (l : Layer) (outer : Layers) (t : Token) :
    Layers.hops? (l :: outer) t =
      if l.contains t.lexeme then some 0 else (Layers.hops? outer t).map (· + 1) :=
  List.findIdx?_cons

/-! ### Names on other lines -/

section

variable (g : Nat → Nat) (layers : Layers) (t : Token)

@[simp] theorem hops?_reline : layers.hops? (t.reline g) = layers.hops? t := rfl

@[simp] theorem initializes_reline : layers.initializes (t.reline g) = layers.initializes t := rfl

@[simp] theorem redeclares_reline : layers.redeclares (t.reline g) = layers.redeclares t := rfl

@[simp] theorem declare_reline : layers.declare (t.reline g) = layers.declare t := rfl

@[simp] theorem define_reline : layers.define (t.reline g) = layers.define t := rfl

@[simp] theorem foldl_define_reline (params : List Token) (layers : Layers) :
    (params.map (Token.reline g)).foldl Layers.define layers =
      params.foldl Layers.define layers := by
  induction params generalizing layers with
  | nil => rfl
  | cons param rest ih => exact ih (layers.define param)

@[simp] theorem bodyLayers_reline (params : List Token) :
    bodyLayers layers (params.map (Token.reline g)) = bodyLayers layers params :=
  foldl_define_reline g params _

end

/-- A copy declares what the statement declares. -/
theorem after_copy {g : Nat → Nat} {s s' : Stmt} (h : s'.bare = (s.reline g).bare)
    (layers : Layers) : layers.after s' = layers.after s := by
  fun_induction Layers.after layers s generalizing s' with
  | case1 layers name initializer =>
    obtain ⟨_, rfl, _⟩ := Stmt.bare_eq_varDecl h
    rfl
  | case2 layers f =>
    obtain ⟨⟨_, _, _⟩, rfl, same⟩ := Stmt.bare_eq_funDecl h
    obtain ⟨_, _, _⟩ := f
    injection same with name
    rw [Layers.after, name]
    rfl
  | case3 layers name superclass methods =>
    obtain ⟨_, _, rfl, _⟩ := Stmt.bare_eq_classDecl h
    rfl
  | case4 layers condition thenBranch ih =>
    obtain ⟨_, _, o', rfl, _, same, none⟩ := Stmt.bare_eq_ifElse h
    cases o' with
    | none =>
      rw [Layers.after]
      exact ih same
    | some _ => cases none
  | case5 layers condition thenBranch elseBranch ih ih' =>
    obtain ⟨_, _, o', rfl, _, same, some⟩ := Stmt.bare_eq_ifElse h
    cases o' with
    | none => cases some
    | some _ =>
      rw [Layers.after, ih same]
      exact ih' (Option.some.inj some)
  | case6 layers condition body ih =>
    obtain ⟨_, _, rfl, _, same⟩ := Stmt.bare_eq_whileLoop h
    rw [Layers.after]
    exact ih same
  | case7 s layers noVar noFun noClass noThen noElse noLoop =>
    -- what is left declares nothing, and neither does its copy
    cases s with
    | expression e =>
      obtain ⟨_, rfl, _⟩ := Stmt.bare_eq_expression h
      rfl
    | print t e =>
      obtain ⟨_, rfl, _⟩ := Stmt.bare_eq_print h
      rfl
    | block body =>
      obtain ⟨_, rfl, _⟩ := Stmt.bare_eq_block h
      rfl
    | ret t o =>
      obtain ⟨_, rfl, _⟩ := Stmt.bare_eq_ret h
      rfl
    | varDecl t o => exact absurd rfl (noVar t o)
    | funDecl f => exact absurd rfl (noFun f)
    | classDecl t o fs => exact absurd rfl (noClass t o fs)
    | whileLoop c b => exact absurd rfl (noLoop c b)
    | ifElse c b o =>
      cases o with
      | none => exact absurd rfl (noThen c b)
      | some d => exact absurd rfl (noElse c b d)

theorem after_of_bare {s s' : Stmt} (h : s'.bare = s.bare) (layers : Layers) :
    layers.after s' = layers.after s := by
  rw [← Stmt.reline_id s] at h
  exact after_copy h layers

end Binding

namespace Evaluation

open Binding

/-! ### Copies mirror each other -/

/-- Tokens that differ in their lines only, closed under the tokens that the evaluator makes
    up. -/
structure Relines (T : Token → Token → Prop) : Prop where
  kind : ∀ {t t'}, T t t' → t.kind = t'.kind
  lexeme : ∀ {t t'}, T t t' → t.lexeme = t'.lexeme
  self : ∀ {t t'}, T t t' → T (.synthetic "this" t.line) (.synthetic "this" t'.line)

/-- The mirror of a program and its copy, whose distances are noted. All names are spelled
    alike, so that one kind of scope is enough. -/
def copying {T : Token → Token → Prop} (relines : Relines T)
    (N N' : NodeId → Option Nat → Prop) : Mirror Unit where
  token := T
  node n n' distance := N n distance ∧ N' n' distance
  names _ a b := a = b
  plain := ()
  kind_eq := relines.kind
  self_token := relines.self
  names_plain := Iff.rfl
  names_inj := by
    rintro _ a a' b b' rfl rfl
    exact Iff.rfl
  names_this := rfl

section

variable {T : Token → Token → Prop} {relines : Relines T} {N N' : NodeId → Option Nat → Prop}
  {g : Nat → Nat} {env : List Unit}

theorem refers_copy {t : Token} (token : T t (t.reline g)) {n n' : NodeId} {hops : Option Nat}
    (noted : N n hops) (noted' : N' n' hops) :
    (copying relines N N').Refers env n t n' (t.reline g) := by
  cases hops with
  | some distance => exact ⟨token, .inl ⟨distance, ⟨noted, noted'⟩, fun _ _ => rfl⟩⟩
  | none => exact ⟨token, .inr ⟨⟨noted, noted'⟩, rfl⟩⟩

variable (relines)

mutual

theorem copy_expr : ∀ (e : Expr) {e' : Expr} {context : Context} {layers : Layers},
    e'.bare = (e.reline g).bare → e.Over (fun t => T t (t.reline g)) →
    Noted N (inExpr context layers e) → Recorded N' (inExpr context layers e') →
    (inExpr context layers e').errors = [] ∧ ExprMirrors (copying relines N N') env e e'
  | .literal value, e', _, _, same, _, _, _ => by
    obtain rfl := Expr.bare_eq_literal same
    exact ⟨rfl, .literal value⟩
  | .grouping inner, e', _, _, same, made, noted, recorded => by
    obtain ⟨inner', rfl, copies⟩ := Expr.bare_eq_grouping same
    obtain ⟨clean, mirrors⟩ := copy_expr inner copies (over_grouping made) noted recorded
    exact ⟨clean, .grouping mirrors⟩
  | .unary o right, e', _, _, same, made, noted, recorded => by
    obtain ⟨right', rfl, copies⟩ := Expr.bare_eq_unary same
    obtain ⟨token, made⟩ := over_unary made
    obtain ⟨clean, mirrors⟩ := copy_expr right copies made noted recorded
    exact ⟨clean, .unary token mirrors⟩
  | .binary left o right, e', context, layers, same, made, noted, recorded => by
    obtain ⟨left', right', rfl, same₁, same₂⟩ := Expr.bare_eq_binary same
    obtain ⟨made₁, token, made₂⟩ := over_binary made
    simp only [inExpr, noted_append, recorded_append] at noted recorded
    obtain ⟨clean₁, mirrors₁⟩ := copy_expr left same₁ made₁ noted.1 recorded.1
    obtain ⟨clean₂, mirrors₂⟩ := copy_expr right same₂ made₂ noted.2 recorded.2
    exact ⟨by simp [inExpr, clean₁, clean₂], .binary mirrors₁ token mirrors₂⟩
  | .logical left o right, e', _, _, same, made, noted, recorded => by
    obtain ⟨left', right', rfl, same₁, same₂⟩ := Expr.bare_eq_logical same
    obtain ⟨made₁, token, made₂⟩ := over_logical made
    simp only [inExpr, noted_append, recorded_append] at noted recorded
    obtain ⟨clean₁, mirrors₁⟩ := copy_expr left same₁ made₁ noted.1 recorded.1
    obtain ⟨clean₂, mirrors₂⟩ := copy_expr right same₂ made₂ noted.2 recorded.2
    exact ⟨by simp [inExpr, clean₁, clean₂], .logical mirrors₁ token mirrors₂⟩
  | .var n t, e', _, _, same, made, noted, recorded => by
    obtain ⟨n', rfl⟩ := Expr.bare_eq_var same
    have token := over_var made
    simp only [inExpr, noted_append, noted_errorIf, noted_reference, recorded_append,
      recorded_reference] at noted recorded
    refine ⟨?_, .var (refers_copy token noted.2 recorded.2)⟩
    simp [inExpr, Findings.errorIf, Findings.reference, noted.1]
  | .assign n t value, e', _, _, same, made, noted, recorded => by
    obtain ⟨n', value', rfl, copies⟩ := Expr.bare_eq_assign same
    obtain ⟨token, made⟩ := over_assign made
    simp only [inExpr, noted_append, noted_reference, recorded_append, recorded_reference]
      at noted recorded
    obtain ⟨clean, mirrors⟩ := copy_expr value copies made noted.1 recorded.1
    refine ⟨?_, .assign (refers_copy token noted.2 recorded.2) mirrors⟩
    simp [inExpr, Findings.reference, clean]
  | .call callee p arguments, e', _, _, same, made, noted, recorded => by
    obtain ⟨callee', arguments', rfl, same₁, same₂⟩ := Expr.bare_eq_call same
    obtain ⟨made₁, made₂, token⟩ := over_call made
    simp only [inExpr, noted_append, recorded_append] at noted recorded
    obtain ⟨clean₁, mirrors₁⟩ := copy_expr callee same₁ made₁ noted.1 recorded.1
    obtain ⟨clean₂, mirrors₂⟩ := copy_exprs arguments same₂ made₂ noted.2 recorded.2
    exact ⟨by simp [inExpr, clean₁, clean₂], .call mirrors₁ token mirrors₂⟩
  | .get object t, e', _, _, same, made, noted, recorded => by
    obtain ⟨object', rfl, copies⟩ := Expr.bare_eq_get same
    obtain ⟨made, token⟩ := over_get made
    obtain ⟨clean, mirrors⟩ := copy_expr object copies made noted recorded
    exact ⟨clean, .get mirrors ⟨token, rfl⟩⟩
  | .set object t value, e', _, _, same, made, noted, recorded => by
    obtain ⟨object', value', rfl, same₁, same₂⟩ := Expr.bare_eq_set same
    obtain ⟨made₁, token, made₂⟩ := over_set made
    simp only [inExpr, noted_append, recorded_append] at noted recorded
    obtain ⟨clean₂, mirrors₂⟩ := copy_expr value same₂ made₂ noted.1 recorded.1
    obtain ⟨clean₁, mirrors₁⟩ := copy_expr object same₁ made₁ noted.2 recorded.2
    exact ⟨by simp [inExpr, clean₁, clean₂], .set mirrors₁ ⟨token, rfl⟩ mirrors₂⟩
  | .thisRef n t, e', context, layers, same, made, noted, recorded => by
    obtain ⟨n', rfl⟩ := Expr.bare_eq_thisRef same
    have token := (over_thisRef made).1
    -- outside of every class there would be an error
    have inside : context.classContext ≠ .outside := by
      intro outside
      simp [inExpr, outside, Noted, Findings.errorIf] at noted
    simp only [inExpr, if_neg inside, noted_reference, recorded_reference] at noted recorded ⊢
    exact ⟨rfl, .thisRef (refers_copy token noted recorded)⟩
  | .superRef n t u, e', _, _, same, made, noted, recorded => by
    obtain ⟨n', rfl⟩ := Expr.bare_eq_superRef same
    obtain ⟨⟨token, _⟩, token'⟩ := over_superRef made
    simp only [inExpr, superErrors, noted_append, noted_errorIf, noted_reference,
      recorded_append, recorded_reference] at noted recorded
    refine ⟨?_, .superRef (refers_copy token noted.2 recorded.2) ⟨token', rfl⟩⟩
    simp [inExpr, superErrors, Findings.errorIf, Findings.reference, noted.1]

theorem copy_exprs : ∀ (es : List Expr) {es' : List Expr} {context : Context} {layers : Layers},
    Expr.bareAll es' = Expr.bareAll (Expr.relineAll g es) →
    (∀ e ∈ es, e.Over (fun t => T t (t.reline g))) →
    Noted N (inArguments context layers es) → Recorded N' (inArguments context layers es') →
    (inArguments context layers es').errors = [] ∧
      ExprsMirror (copying relines N N') env es es'
  | [], es', _, _, same, _, _, _ => by
    obtain rfl := Expr.bareAll_eq_nil same
    exact ⟨rfl, .nil⟩
  | e :: rest, es', _, _, same, made, noted, recorded => by
    obtain ⟨e', rest', rfl, same₁, same₂⟩ := Expr.bareAll_eq_cons same
    obtain ⟨made₁, made₂⟩ := List.forall_mem_cons.mp made
    simp only [inArguments, noted_append, recorded_append] at noted recorded
    obtain ⟨clean₁, mirrors₁⟩ := copy_expr e same₁ made₁ noted.1 recorded.1
    obtain ⟨clean₂, mirrors₂⟩ := copy_exprs rest same₂ made₂ noted.2 recorded.2
    exact ⟨by simp [inArguments, clean₁, clean₂], .cons mirrors₁ mirrors₂⟩

end

/-- An option that is the copy of an option. -/
theorem copy_cases {o o' : Option Expr}
    (same : o'.map Expr.bare = (o.map (Expr.reline g)).map Expr.bare) :
    o = none ∧ o' = none ∨ ∃ e e', o = some e ∧ o' = some e' ∧ e'.bare = (e.reline g).bare := by
  cases o with
  | none =>
    cases o' with
    | none => exact .inl ⟨rfl, rfl⟩
    | some e' => cases same
  | some e =>
    cases o' with
    | none => cases same
    | some e' => exact .inr ⟨e, e', rfl, rfl, Option.some.inj same⟩

theorem copy_option {o o' : Option Expr} {context : Context} {layers : Layers}
    (same : o'.map Expr.bare = (o.map (Expr.reline g)).map Expr.bare)
    (made : Expr.OptionOver (fun t => T t (t.reline g)) o)
    (noted : Noted N (inOption context layers o))
    (recorded : Recorded N' (inOption context layers o')) :
    (inOption context layers o').errors = [] ∧
      Option.Rel (ExprMirrors (copying relines N N') env) o o' := by
  rcases copy_cases same with ⟨rfl, rfl⟩ | ⟨e, e', rfl, rfl, copies⟩
  · exact ⟨rfl, .none⟩
  · obtain ⟨clean, mirrors⟩ := copy_expr relines e copies (made e rfl) noted recorded
    exact ⟨clean, .some mirrors⟩

/-- A copy inherits from itself only if the class does. -/
theorem selfInheritance_copy {name : Token} {e e' : Expr} (same : e'.bare = (e.reline g).bare)
    (clean : (selfInheritance name e).errors = []) :
    (selfInheritance (name.reline g) e').errors = [] := by
  cases e with
  | var n t =>
    obtain ⟨n', rfl⟩ := Expr.bare_eq_var same
    simpa [selfInheritance, Findings.errorIf] using clean
  | _ =>
    cases e' with
    | var => simp [Expr.reline, Expr.bare] at same
    | _ => rfl

theorem copy_superclass {o o' : Option Expr} {name : Token} {context : Context}
    {layers : Layers} (same : o'.map Expr.bare = (o.map (Expr.reline g)).map Expr.bare)
    (made : Expr.OptionOver (fun t => T t (t.reline g)) o)
    (noted : Noted N (inSuperclass context layers name o))
    (recorded : Recorded N' (inSuperclass context layers (name.reline g) o')) :
    (inSuperclass context layers (name.reline g) o').errors = [] ∧
      Option.Rel (ExprMirrors (copying relines N N') env) o o' := by
  rcases copy_cases same with ⟨rfl, rfl⟩ | ⟨e, e', rfl, rfl, copies⟩
  · exact ⟨rfl, .none⟩
  · simp only [inSuperclass, noted_append, recorded_append] at noted recorded
    obtain ⟨clean, mirrors⟩ := copy_expr relines e copies (made e rfl) noted.2 recorded.2
    exact ⟨by simp [inSuperclass, clean, selfInheritance_copy copies noted.1.1], .some mirrors⟩

theorem redeclaration_reline {layers : Layers} {name : Token}
    (noted : Noted N (redeclaration layers name)) :
    (redeclaration layers (name.reline g)).errors = [] := by
  simp only [redeclaration, noted_errorIf] at noted
  simp [redeclaration, Findings.errorIf, noted]

theorem inParams_reline {params : List Token} : ∀ {layers : Layers},
    Noted N (inParams layers params) →
    (inParams layers (params.map (Token.reline g))).errors = [] := by
  induction params with
  | nil => exact fun _ => rfl
  | cons param rest ih =>
    intro layers noted
    simp only [inParams, noted_append] at noted
    simp [inParams, redeclaration_reline noted.1, ih noted.2]

theorem copy_params {params : List Token} (tokens : ∀ param ∈ params, T param (param.reline g)) :
    (copying relines N N').Params () params (params.map (Token.reline g)) := by
  induction params with
  | nil => exact .nil
  | cons param rest ih =>
    obtain ⟨token, later⟩ := List.forall_mem_cons.mp tokens
    exact .cons ⟨token, rfl⟩ (ih later)

mutual

theorem copy_stmt : ∀ (s : Stmt) {s' : Stmt} {context : Context} {layers : Layers}
    {env : List Unit}, s'.bare = (s.reline g).bare → s.Over (fun t => T t (t.reline g)) →
    Noted N (inStmt context layers s) → Recorded N' (inStmt context layers s') →
    (inStmt context layers s').errors = [] ∧ StmtMirrors (copying relines N N') env s s'
  | .expression e, s', _, _, _, same, made, noted, recorded => by
    obtain ⟨e', rfl, copies⟩ := Stmt.bare_eq_expression same
    rw [inStmt] at noted recorded
    obtain ⟨clean, mirrors⟩ := copy_expr relines e copies made noted recorded
    exact ⟨by rw [inStmt, clean], .expression mirrors⟩
  | .print t e, s', _, _, _, same, made, noted, recorded => by
    obtain ⟨e', rfl, copies⟩ := Stmt.bare_eq_print same
    rw [inStmt] at noted recorded
    obtain ⟨clean, mirrors⟩ := copy_expr relines e copies made.2 noted recorded
    exact ⟨by rw [inStmt, clean], .print made.1 mirrors⟩
  | .varDecl t o, s', _, _, _, same, made, noted, recorded => by
    obtain ⟨o', rfl, copies⟩ := Stmt.bare_eq_varDecl same
    simp only [inStmt, noted_append, recorded_append, declare_reline] at noted recorded
    obtain ⟨clean, mirrors⟩ := copy_option relines copies made.2 noted.2 recorded.2
    refine ⟨?_, .varDecl ⟨made.1.1, fun _ _ => rfl⟩ mirrors⟩
    simp [inStmt, clean, redeclaration_reline noted.1]
  | .block body, s', _, _, _, same, made, noted, recorded => by
    obtain ⟨body', rfl, copies⟩ := Stmt.bare_eq_block same
    rw [inStmt] at noted recorded
    obtain ⟨clean, mirrors⟩ := copy_stmts body copies made noted recorded
    exact ⟨by rw [inStmt, clean], .block () mirrors⟩
  | .ifElse c b none, s', _, _, _, same, made, noted, recorded => by
    obtain ⟨c', b', o', rfl, same₁, same₂, absent⟩ := Stmt.bare_eq_ifElse same
    cases o' with
    | some _ => cases absent
    | none =>
      simp only [inStmt, noted_append, recorded_append] at noted recorded
      obtain ⟨clean₁, mirrors₁⟩ := copy_expr relines c same₁ made.1 noted.1 recorded.1
      obtain ⟨clean₂, mirrors₂⟩ := copy_stmt b same₂ made.2.1 noted.2 recorded.2
      exact ⟨by simp [inStmt, clean₁, clean₂], .ifThen mirrors₁ mirrors₂⟩
  | .ifElse c b (some d), s', _, layers, _, same, made, noted, recorded => by
    obtain ⟨c', b', o', rfl, same₁, same₂, present⟩ := Stmt.bare_eq_ifElse same
    cases o' with
    | none => cases present
    | some d' =>
      have same₃ : d'.bare = (d.reline g).bare := Option.some.inj present
      have after := after_copy same₂ layers
      simp only [inStmt, noted_append, recorded_append, after] at noted recorded
      obtain ⟨clean₁, mirrors₁⟩ := copy_expr relines c same₁ made.1 noted.1.1 recorded.1.1
      obtain ⟨clean₂, mirrors₂⟩ := copy_stmt b same₂ made.2.1 noted.1.2 recorded.1.2
      obtain ⟨clean₃, mirrors₃⟩ := copy_stmt d same₃ made.2.2 noted.2 recorded.2
      exact ⟨by simp [inStmt, after, clean₁, clean₂, clean₃],
        .ifElse mirrors₁ mirrors₂ mirrors₃⟩
  | .whileLoop c b, s', _, _, _, same, made, noted, recorded => by
    obtain ⟨c', b', rfl, same₁, same₂⟩ := Stmt.bare_eq_whileLoop same
    simp only [inStmt, noted_append, recorded_append] at noted recorded
    obtain ⟨clean₁, mirrors₁⟩ := copy_expr relines c same₁ made.1 noted.1 recorded.1
    obtain ⟨clean₂, mirrors₂⟩ := copy_stmt b same₂ made.2 noted.2 recorded.2
    exact ⟨by simp [inStmt, clean₁, clean₂], .whileLoop mirrors₁ mirrors₂⟩
  | .funDecl f, s', _, layers, _, same, made, noted, recorded => by
    obtain ⟨f', rfl, copies⟩ := Stmt.bare_eq_funDecl same
    have named : f'.name = f.name.reline g ∧ T f.name (f.name.reline g) := by
      obtain ⟨_, _, _⟩ := f
      obtain ⟨_, _, _⟩ := f'
      injection copies with name
      exact ⟨name, made.1⟩
    simp only [inStmt, noted_append, recorded_append, named.1, define_reline] at noted recorded
    obtain ⟨clean, mirrors⟩ := copy_function f copies made noted.2 recorded.2
    refine ⟨?_, .funDecl ⟨named.1 ▸ named.2, fun _ _ => by rw [named.1]; rfl⟩ mirrors⟩
    simp [inStmt, clean, named.1, redeclaration_reline noted.1]
  | .ret t o, s', _, _, _, same, made, noted, recorded => by
    obtain ⟨o', rfl, copies⟩ := Stmt.bare_eq_ret same
    simp only [inStmt, noted_append, recorded_append, returnErrors, noted_errorIf]
      at noted recorded
    obtain ⟨clean, mirrors⟩ := copy_option relines copies made.2 noted.2 recorded.2
    have some : o'.isSome = o.isSome := by
      have both := congrArg Option.isSome copies
      simpa using both
    refine ⟨?_, .ret made.1 mirrors⟩
    simp [inStmt, returnErrors, Findings.errorIf, clean, some, noted.1]
  | .classDecl t o fs, s', _, layers, _, same, made, noted, recorded => by
    obtain ⟨o', fs', rfl, same₁, same₂⟩ := Stmt.bare_eq_classDecl same
    have some : o'.isSome = o.isSome := by
      have both := congrArg Option.isSome same₁
      simpa using both
    simp only [inStmt, noted_append, recorded_append, define_reline, some] at noted recorded
    obtain ⟨clean₁, mirrors₁⟩ := copy_superclass relines same₁ made.2.1 noted.1.2 recorded.1.2
    obtain ⟨clean₂, mirrors₂⟩ := copy_methods fs same₂ made.2.2 noted.2 recorded.2
    refine ⟨?_, .classDecl ⟨made.1, fun _ _ => rfl⟩ rfl mirrors₁ mirrors₂⟩
    simp [inStmt, some, clean₁, clean₂, redeclaration_reline noted.1.1]

theorem copy_stmts : ∀ (ss : List Stmt) {ss' : List Stmt} {context : Context} {layers : Layers}
    {env : List Unit}, Stmt.bareAll ss' = Stmt.bareAll (Stmt.relineAll g ss) →
    Stmt.AllOver (fun t => T t (t.reline g)) ss → Noted N (inStmts context layers ss) →
    Recorded N' (inStmts context layers ss') →
    (inStmts context layers ss').errors = [] ∧ StmtsMirror (copying relines N N') env ss ss'
  | [], ss', _, _, _, same, _, _, _ => by
    obtain rfl := Stmt.bareAll_eq_nil same
    exact ⟨by rw [inStmts]; rfl, .nil⟩
  | s :: rest, ss', _, layers, _, same, made, noted, recorded => by
    obtain ⟨s', rest', rfl, same₁, same₂⟩ := Stmt.bareAll_eq_cons same
    have after := after_copy same₁ layers
    simp only [inStmts, noted_append, recorded_append, after] at noted recorded
    obtain ⟨clean₁, mirrors₁⟩ := copy_stmt s same₁ made.1 noted.1 recorded.1
    obtain ⟨clean₂, mirrors₂⟩ := copy_stmts rest same₂ made.2 noted.2 recorded.2
    exact ⟨by simp [inStmts, after, clean₁, clean₂], .cons mirrors₁ mirrors₂⟩

theorem copy_function : ∀ (f : FunctionDecl) {f' : FunctionDecl} {context : Context}
    {kind : RoutineContext} {layers : Layers} {env : List Unit},
    f'.bare = (f.reline g).bare → f.Over (fun t => T t (t.reline g)) →
    Noted N (inFunction context kind layers f) →
    Recorded N' (inFunction context kind layers f') →
    (inFunction context kind layers f').errors = [] ∧
      FunctionMirrors (copying relines N N') env f f'
  | ⟨name, params, body⟩, ⟨name', params', body'⟩, _, _, _, _, same, made, noted, recorded => by
    injection same with hname hparams copies
    subst hname hparams
    simp only [inFunction, noted_append, recorded_append, bodyLayers_reline] at noted recorded
    obtain ⟨clean, mirrors⟩ := copy_stmts body copies made.2.2 noted.2 recorded.2
    refine ⟨?_, .mk () ⟨made.1, rfl⟩ (copy_params relines ?_) mirrors⟩
    · simp [inFunction, clean, inParams_reline noted.1]
    · exact fun param mem => (made.2.1 param mem).1

theorem copy_methods : ∀ (fs : List FunctionDecl) {fs' : List FunctionDecl} {context : Context}
    {layers : Layers} {env : List Unit},
    FunctionDecl.bareAll fs' = FunctionDecl.bareAll (FunctionDecl.relineAll g fs) →
    FunctionDecl.AllOver (fun t => T t (t.reline g)) fs →
    Noted N (inMethods context layers fs) → Recorded N' (inMethods context layers fs') →
    (inMethods context layers fs').errors = [] ∧
      MethodsMirror (copying relines N N') env fs fs'
  | [], fs', _, _, _, same, _, _, _ => by
    obtain rfl := FunctionDecl.bareAll_eq_nil same
    exact ⟨by rw [inMethods]; rfl, .nil⟩
  | f :: rest, fs', _, _, _, same, made, noted, recorded => by
    obtain ⟨f', rest', rfl, same₁, same₂⟩ := FunctionDecl.bareAll_eq_cons same
    have kind : methodContext f' = methodContext f := by
      obtain ⟨_, _, _⟩ := f
      obtain ⟨_, _, _⟩ := f'
      injection same₁ with name
      subst name
      rfl
    simp only [inMethods, noted_append, recorded_append, kind] at noted recorded
    obtain ⟨clean₁, mirrors₁⟩ := copy_function f same₁ made.1 noted.1 recorded.1
    obtain ⟨clean₂, mirrors₂⟩ := copy_methods rest same₂ made.2 noted.2 recorded.2
    exact ⟨by simp [inMethods, kind, clean₁, clean₂], .cons mirrors₁ mirrors₂⟩

end

end

/-! ### What copies have in common -/

/-- A closure without the identities of the nodes in it, and with its tokens on other lines. -/
def outlineClosure (g : Nat → Nat) (c : Closure) : Closure :=
  { c with declaration := (c.declaration.reline g).bare }

/-- What a class declares itself, without the identities of nodes. -/
def outlineBody (g : Nat → Nat) (b : ClassBody) : ClassBody :=
  { b with methods := ⟨b.methods.entries.map fun entry => (entry.1, outlineClosure g entry.2)⟩ }

/-- A class without the identities of the nodes in its methods. -/
def outlineClass (g : Nat → Nat) : Class → Class
  | .base b => .base (outlineBody g b)
  | .derived b c => .derived (outlineBody g b) (outlineClass g c)

/-- A value without the identities of the nodes in it, and with its tokens on other lines. -/
def outline (g : Nat → Nat) : Value → Value
  | .function c => .function (outlineClosure g c)
  | .classObject c => .classObject (outlineClass g c)
  | .object o => .object { o with ofClass := outlineClass g o.ofClass }
  | v => v

/-- Whether two values are the same up to the identities of nodes, and up to the lines of
    tokens as far as `g` does not tell them apart. -/
def SameOutline (g : Nat → Nat) (v v' : Value) : Prop :=
  outline g v = outline g v'

/-- Whether tokens that stand for each other are the same once they stand on other lines. -/
def Blurs (g : Nat → Nat) (T : Token → Token → Prop) : Prop :=
  ∀ t t', T t t' → t.reline g = t'.reline g

section

variable {T : Token → Token → Prop} {relines : Relines T} {N N' : NodeId → Option Nat → Prop}
  {g : Nat → Nat}

mutual

theorem ExprMirrors.outline_eq (blurs : Blurs g T) {env : List Unit} {e e' : Expr} :
    ExprMirrors (copying relines N N') env e e' → (e.reline g).bare = (e'.reline g).bare
  | .literal _ => rfl
  | .grouping inner => congrArg Expr.grouping (inner.outline_eq blurs)
  | .unary token right => congrArg₂ Expr.unary (blurs _ _ token) (right.outline_eq blurs)
  | .binary left token right => by
    rw [Expr.reline, Expr.reline, Expr.bare, Expr.bare, left.outline_eq blurs,
      blurs _ _ token, right.outline_eq blurs]
  | .logical left token right => by
    rw [Expr.reline, Expr.reline, Expr.bare, Expr.bare, left.outline_eq blurs,
      blurs _ _ token, right.outline_eq blurs]
  | .var refers => congrArg (Expr.var 0) (blurs _ _ refers.1)
  | .assign refers value =>
    congrArg₂ (Expr.assign 0) (blurs _ _ refers.1) (value.outline_eq blurs)
  | .call callee token arguments => by
    rw [Expr.reline, Expr.reline, Expr.bare, Expr.bare, callee.outline_eq blurs,
      blurs _ _ token, arguments.outline_eq blurs]
  | .get object same => congrArg₂ Expr.get (object.outline_eq blurs) (blurs _ _ same.1)
  | .set object same value => by
    rw [Expr.reline, Expr.reline, Expr.bare, Expr.bare, object.outline_eq blurs,
      blurs _ _ same.1, value.outline_eq blurs]
  | .thisRef refers => congrArg (Expr.thisRef 0) (blurs _ _ refers.1)
  | .superRef refers same =>
    congrArg₂ (Expr.superRef 0) (blurs _ _ refers.1) (blurs _ _ same.1)

theorem ExprsMirror.outline_eq (blurs : Blurs g T) {env : List Unit} {es es' : List Expr} :
    ExprsMirror (copying relines N N') env es es' →
      Expr.bareAll (Expr.relineAll g es) = Expr.bareAll (Expr.relineAll g es')
  | .nil => rfl
  | .cons first rest =>
    congrArg₂ List.cons (first.outline_eq blurs) (rest.outline_eq blurs)

end

theorem optionOutline_eq (blurs : Blurs g T) {env : List Unit} {o o' : Option Expr}
    (h : Option.Rel (ExprMirrors (copying relines N N') env) o o') :
    (o.map (Expr.reline g)).map Expr.bare = (o'.map (Expr.reline g)).map Expr.bare := by
  cases h with
  | none => rfl
  | some value => exact congrArg some (value.outline_eq blurs)

theorem paramsOutline_eq (blurs : Blurs g T) {ps ps' : List Token}
    (h : (copying relines N N').Params () ps ps') :
    ps.map (Token.reline g) = ps'.map (Token.reline g) := by
  induction h with
  | nil => rfl
  | cons param _ ih => rw [List.map_cons, List.map_cons, blurs _ _ param.1, ih]

mutual

theorem StmtMirrors.outline_eq (blurs : Blurs g T) {env : List Unit} {s s' : Stmt} :
    StmtMirrors (copying relines N N') env s s' → (s.reline g).bare = (s'.reline g).bare
  | .expression value => congrArg Stmt.expression (value.outline_eq blurs)
  | .print token value => congrArg₂ Stmt.print (blurs _ _ token) (value.outline_eq blurs)
  | .varDecl declares initializer =>
    congrArg₂ Stmt.varDecl (blurs _ _ declares.1) (optionOutline_eq blurs initializer)
  | .block _ body => congrArg Stmt.block (body.outline_eq blurs)
  | .ifThen condition thenBranch =>
    congrArg₂ (Stmt.ifElse · · none) (condition.outline_eq blurs) (thenBranch.outline_eq blurs)
  | .ifElse condition thenBranch elseBranch => by
    rw [Stmt.reline, Stmt.reline, Stmt.bare, Stmt.bare, condition.outline_eq blurs,
      thenBranch.outline_eq blurs, Stmt.relineElse, Stmt.relineElse, Stmt.bareElse,
      Stmt.bareElse, elseBranch.outline_eq blurs]
  | .whileLoop condition body =>
    congrArg₂ Stmt.whileLoop (condition.outline_eq blurs) (body.outline_eq blurs)
  | .funDecl _ function => congrArg Stmt.funDecl (function.outline_eq blurs)
  | .ret token value => congrArg₂ Stmt.ret (blurs _ _ token) (optionOutline_eq blurs value)
  | .classDecl declares _ superclass methods => by
    rw [Stmt.reline, Stmt.reline, Stmt.bare, Stmt.bare, blurs _ _ declares.1,
      optionOutline_eq blurs superclass, methods.outline_eq blurs]

theorem StmtsMirror.outline_eq (blurs : Blurs g T) {env : List Unit} {ss ss' : List Stmt} :
    StmtsMirror (copying relines N N') env ss ss' →
      Stmt.bareAll (Stmt.relineAll g ss) = Stmt.bareAll (Stmt.relineAll g ss')
  | .nil => rfl
  | .cons first rest =>
    congrArg₂ List.cons (first.outline_eq blurs) (rest.outline_eq blurs)

theorem FunctionMirrors.outline_eq (blurs : Blurs g T) {env : List Unit}
    {f f' : FunctionDecl} :
    FunctionMirrors (copying relines N N') env f f' → (f.reline g).bare = (f'.reline g).bare
  | .mk _ same params body => by
    rw [FunctionDecl.reline, FunctionDecl.reline, FunctionDecl.bare, FunctionDecl.bare,
      blurs _ _ same.1, paramsOutline_eq blurs params, body.outline_eq blurs]

theorem MethodsMirror.outline_eq (blurs : Blurs g T) {env : List Unit}
    {fs fs' : List FunctionDecl} : MethodsMirror (copying relines N N') env fs fs' →
      FunctionDecl.bareAll (FunctionDecl.relineAll g fs) =
        FunctionDecl.bareAll (FunctionDecl.relineAll g fs')
  | .nil => rfl
  | .cons first rest =>
    congrArg₂ List.cons (first.outline_eq blurs) (rest.outline_eq blurs)

end

theorem RoutineMirrors.outline_eq (blurs : Blurs g T) {w inner : List Unit} {c c' : Closure}
    (h : RoutineMirrors (copying relines N N') w inner c c') :
    outlineClosure g c = outlineClosure g c' := by
  obtain ⟨id, declaration, scope, isInitializer⟩ := c
  obtain ⟨id', declaration', scope', isInitializer'⟩ := c'
  obtain ⟨rfl, rfl, rfl, _, _, mirrors⟩ := h
  exact congrArg (Closure.mk id · scope isInitializer) (mirrors.outline_eq blurs)

theorem BodyMirrors.outline_eq (blurs : Blurs g T) {w : List Unit} {b b' : ClassBody}
    (h : BodyMirrors (copying relines N N') w b b') : outlineBody g b = outlineBody g b' := by
  obtain ⟨id, name, ⟨entries⟩⟩ := b
  obtain ⟨id', name', ⟨entries'⟩⟩ := b'
  obtain ⟨rfl, rfl, table⟩ := h
  have same : entries.map (fun entry => (entry.1, outlineClosure g entry.2)) =
      entries'.map (fun entry => (entry.1, outlineClosure g entry.2)) := by
    change List.Forall₂ _ entries entries' at table
    induction table with
    | nil => rfl
    | cons entry _ ih =>
      rw [List.map_cons, List.map_cons, entry.1, RoutineMirrors.outline_eq blurs entry.2, ih]
  unfold outlineBody
  rw [same]

theorem ClassMirrors.outline_eq (blurs : Blurs g T) {w : List Unit} {c c' : Class}
    (h : ClassMirrors (copying relines N N') w c c') : outlineClass g c = outlineClass g c' := by
  induction h with
  | base body => exact congrArg Class.base (body.outline_eq blurs)
  | derived body _ ih => exact congrArg₂ Class.derived (body.outline_eq blurs) ih

/-- Values that mirror each other are the same up to the identities of nodes, and up to the
    lines that are not told apart. -/
theorem ValueMirrors.sameOutline (blurs : Blurs g T) (w : List Unit) (v v' : Value)
    (h : ValueMirrors (copying relines N N') w v v') : SameOutline g v v' := by
  cases h with
  | function hc => exact congrArg Value.function (RoutineMirrors.outline_eq blurs hc)
  | classObject hc => exact congrArg Value.classObject (hc.outline_eq blurs)
  | @object o o' id hc =>
    obtain ⟨i, c⟩ := o
    obtain ⟨i', c'⟩ := o'
    obtain rfl : i = i' := id
    exact congrArg (fun c => Value.object ⟨i, c⟩) (hc.outline_eq blurs)
  | _ => rfl

end

end Evaluation

end Lox
