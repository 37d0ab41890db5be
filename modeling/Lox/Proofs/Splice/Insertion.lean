import Lox.Proofs.Binding.Visits
import Lox.Proofs.Splice.Evaluation

/-! # Code in one scope more

  A walk over a statement relates its names to declarations by the layers around it. With one
  layer more, in which nothing is declared, each name is found in the layer in which it was
  found before, and its distance grows by one if that layer is further out (`Inserts`). So a
  statement inside of such a layer and a copy of it without the layer correspond once the
  distances of both are noted (`splice_stmt`). Code that is the same on both sides, with the
  same distances, corresponds to itself (`stmt_self`).
-/

namespace Lox.Evaluation

open Binding Grammar

variable {ν : Notes} {seam : Seam}

/-! ### The same code -/

/-- Nodes with the same distance on both sides. -/
def Notes.Same (ν : Notes) (nodes : List NodeId) : Prop :=
  ∀ node ∈ nodes, ν.long.get? node = ν.short.get? node

theorem Notes.same_append {nodes nodes' : List NodeId} :
    ν.Same (nodes ++ nodes') ↔ ν.Same nodes ∧ ν.Same nodes' :=
  List.forall_mem_append

theorem Notes.Same.refers {node : NodeId} (h : ν.Same [node]) : ν.Refers none node node := by
  unfold Notes.Refers
  rw [← h node (List.mem_singleton_self node)]
  cases ν.long.get? node with
  | none => exact .none
  | some distance => exact .some rfl

theorem Notes.Same.refersUp {node : NodeId} (h : ν.Same [node]) :
    ν.RefersUp none node node := by
  unfold Notes.RefersUp
  rw [← h node (List.mem_singleton_self node)]
  cases ν.long.get? node with
  | none => exact .none
  | some distance => exact .some ⟨rfl, rfl⟩

theorem Seam.inClass_none (derived : Bool) : Seam.inClass derived none = none := by
  cases derived <;> rfl

mutual

theorem expr_self : ∀ e : Expr, ν.Same (exprNodes e) → ExprSplices ν none e e
  | .literal value, _ => .literal value
  | .grouping inner, same => .grouping (expr_self inner same)
  | .unary _ right, same => .unary (expr_self right same)
  | .binary left _ right, same => by
    rw [exprNodes, occurrences, List.map_append, Notes.same_append] at same
    exact .binary (expr_self left same.1) (expr_self right same.2)
  | .logical left _ right, same => by
    rw [exprNodes, occurrences, List.map_append, Notes.same_append] at same
    exact .logical (expr_self left same.1) (expr_self right same.2)
  | .var _ _, same => .var same.refers
  | .assign _ _ value, same => by
    rw [exprNodes, occurrences, List.map_append, Notes.same_append] at same
    exact .assign same.2.refers (expr_self value same.1)
  | .call callee _ arguments, same => by
    rw [exprNodes, occurrences, List.map_append, Notes.same_append] at same
    exact .call (expr_self callee same.1) (exprs_self arguments same.2)
  | .get object _, same => .get (expr_self object same)
  | .set object _ value, same => by
    rw [exprNodes, occurrences, List.map_append, Notes.same_append] at same
    exact .set (expr_self object same.2) (expr_self value same.1)
  | .thisRef _ _, same => .thisRef same.refers
  | .superRef _ _ _, same => .superRef same.refersUp

theorem exprs_self : ∀ es : List Expr, ν.Same ((occurrencesAll es).map (·.node)) →
    ExprsSplice ν none es es
  | [], _ => .nil
  | e :: rest, same => by
    rw [occurrencesAll, List.map_append, Notes.same_append] at same
    exact .cons (expr_self e same.1) (exprs_self rest same.2)

end

theorem option_self {o : Option Expr} (same : ν.Same (optionNodes o)) :
    OptionSplices ν none o o := by
  cases o with
  | none => exact .none
  | some e => exact .some (expr_self e same)

mutual

theorem stmt_self : ∀ s : Stmt, ν.Same (stmtNodes s) → StmtSplices ν none s s
  | .expression value, same => .expression (expr_self value (by simpa [stmtNodes] using same))
  | .print _ value, same => .print (expr_self value (by simpa [stmtNodes] using same))
  | .varDecl _ _, same => .varDecl Seam.none_ne (option_self (by simpa [stmtNodes] using same))
  | .block body, same => .block (stmts_self body (by simpa [stmtNodes] using same))
  | .ifElse condition thenBranch none, same => by
    rw [stmtNodes, Notes.same_append] at same
    exact .ifThen (expr_self condition same.1) (stmt_self thenBranch same.2)
  | .ifElse condition thenBranch (some elseBranch), same => by
    rw [stmtNodes, Notes.same_append, Notes.same_append] at same
    exact .ifElse (expr_self condition same.1.1) (stmt_self thenBranch same.1.2)
      (stmt_self elseBranch same.2)
  | .whileLoop condition body, same => by
    rw [stmtNodes, Notes.same_append] at same
    exact .whileLoop (expr_self condition same.1) (stmt_self body same.2)
  | .funDecl f, same =>
    .funDecl Seam.none_ne (function_self f (by simpa [stmtNodes] using same))
  | .ret _ _, same => .ret (option_self (by simpa [stmtNodes] using same))
  | .classDecl _ superclass methods, same => by
    rw [stmtNodes, Notes.same_append] at same
    refine .classDecl Seam.none_ne (option_self same.1) ?_
    rw [Seam.inClass_none]
    exact methods_self methods same.2

theorem stmts_self : ∀ ss : List Stmt, ν.Same (treeNodes ss) → StmtsSplice ν none ss ss
  | [], _ => .nil
  | s :: rest, same => by
    rw [treeNodes, Notes.same_append] at same
    exact .cons (stmt_self s same.1) (stmts_self rest same.2)

theorem function_self : ∀ f : FunctionDecl, ν.Same (functionNodes f) →
    FunctionSplices ν none f f
  | ⟨_, _, body⟩, same => .mk (stmts_self body (by simpa [functionNodes] using same))

theorem methods_self : ∀ fs : List FunctionDecl, ν.Same (methodNodes fs) →
    MethodsSplice ν none fs fs
  | [], _ => .nil
  | f :: rest, same => by
    rw [methodNodes, Notes.same_append] at same
    exact .cons (function_self f same.1) (methods_self rest same.2)

end

/-! ### Layers -/

/-- Layers that are the same, but for an empty one at the seam of the first. It stands inside
    of the layers `around`. -/
inductive Inserts (around : Layers) : Seam → Layers → Layers → Prop where
  | whole (layers : Layers) : Inserts around none layers layers
  | here : Inserts around (some 0) (.empty :: around) around
  | inner {seam : Seam} {layers layers' : Layers} (layer : Layer) :
      Inserts around seam layers layers' →
      Inserts around seam.inner (layer :: layers) (layer :: layers')

section

variable {around layers layers' : Layers}

theorem Seam.Shifts.inner {distance distance' : Nat} (h : seam.Shifts distance distance') :
    seam.inner.Shifts (distance + 1) (distance' + 1) := by
  cases seam with
  | none => exact congrArg (· + 1) h
  | some depth =>
    simp only [Seam.Shifts, Seam.inner, Option.map_some] at h ⊢
    omega

/-- A name is found in the same layer on both sides. -/
theorem Inserts.hops (h : Inserts around seam layers layers') (t : Token) :
    Option.Rel seam.Shifts (layers.hops? t) (layers'.hops? t) := by
  induction h with
  | whole layers =>
    cases layers.hops? t with
    | none => exact .none
    | some distance => exact .some rfl
  | here =>
    have empty : Bindings.contains (.empty : Layer) t.lexeme = false := rfl
    rw [hops?_cons, empty]
    cases around.hops? t with
    | none => exact .none
    | some distance => exact .some (.inr ⟨Nat.succ_pos _, rfl⟩)
  | @inner seam layers layers' layer _ ih =>
    rw [hops?_cons, hops?_cons]
    cases layer.contains t.lexeme with
    | true => exact .some (Seam.shifts_zero seam.inner_ne)
    | false =>
      generalize layers.hops? t = o at ih ⊢
      generalize layers'.hops? t = o' at ih ⊢
      cases ih with
      | none => exact .none
      | some shifts => exact .some shifts.inner

/-- The layer just inside of the one in which a name is found is not the additional one, if
    the layer around that does not have the name. -/
theorem Inserts.hopsUp (h : Inserts around seam layers layers') {t : Token}
    (absent : ∀ layer, around.head? = some layer → layer.contains t.lexeme = false) :
    Option.Rel (fun d d' => seam.Shifts d d' ∧ seam.Shifts (d - 1) (d' - 1))
      (layers.hops? t) (layers'.hops? t) := by
  induction h with
  | whole layers =>
    cases layers.hops? t with
    | none => exact .none
    | some distance => exact .some ⟨rfl, rfl⟩
  | here =>
    have empty : Bindings.contains (.empty : Layer) t.lexeme = false := rfl
    rw [hops?_cons, empty]
    cases around with
    | nil => exact .none
    | cons layer outer =>
      rw [hops?_cons, absent layer rfl]
      cases Layers.hops? outer t with
      | none => exact .none
      | some distance =>
        exact .some ⟨.inr ⟨Nat.succ_pos _, rfl⟩, .inr ⟨Nat.succ_pos _, rfl⟩⟩
  | @inner seam layers layers' layer _ ih =>
    rw [hops?_cons, hops?_cons]
    cases layer.contains t.lexeme with
    | true =>
      have zero := Seam.shifts_zero seam.inner_ne
      exact .some ⟨zero, zero⟩
    | false =>
      generalize layers.hops? t = o at ih ⊢
      generalize layers'.hops? t = o' at ih ⊢
      cases ih with
      | none => exact .none
      | @some d d' both =>
        refine .some ⟨both.1.inner, ?_⟩
        cases seam with
        | none => exact both.1
        | some depth =>
          simp only [Seam.Shifts, Seam.inner, Option.map_some] at both ⊢
          omega

/-- A declaration in a layer that both sides have. -/
theorem Inserts.mark (h : Inserts around seam layers layers') (inside : seam ≠ some 0)
    (name : Token) (status : Status) :
    Inserts around seam (layers.mark name status) (layers'.mark name status) := by
  cases h with
  | whole => exact .whole _
  | here => exact absurd rfl inside
  | inner layer rest => exact .inner _ rest

theorem Inserts.body (h : Inserts around seam layers layers') (params : List Token) :
    Inserts around seam.inner (bodyLayers layers params) (bodyLayers layers' params) := by
  have start : Inserts around seam.inner (.empty :: layers) (.empty :: layers') := .inner _ h
  unfold bodyLayers
  generalize (.empty :: layers : Layers) = first at start ⊢
  generalize (.empty :: layers' : Layers) = second at start ⊢
  induction params generalizing first second with
  | nil => exact start
  | cons param rest ih => exact ih _ _ (start.mark seam.inner_ne param .defined)

theorem Inserts.ofClass (h : Inserts around seam layers layers') (derived : Bool) :
    Inserts around (seam.inClass derived) (layers.ofClass derived)
      (layers'.ofClass derived) := by
  cases derived with
  | false => exact .inner _ h
  | true => exact .inner _ (.inner _ h)

/-- What a statement declares is declared on both sides, also by a copy. -/
theorem Inserts.after (h : Inserts around seam layers layers') {s s' : Stmt}
    (formed : WellFormed s) (plain : seam = some 0 → declared? s = none)
    (same : s'.bare = s.bare) :
    Inserts around seam (layers.after s) (layers'.after s') := by
  rw [after_of_bare same, after_eq layers formed, after_eq layers' formed]
  cases declares : declared? s with
  | none => exact h
  | some name =>
    refine h.mark (fun here => ?_) name .defined
    rw [plain here] at declares
    cases declares

end

/-! ### Copies -/

/-- Whether a table has what was found for a reference. -/
def Lists (hops : Hops) (node : NodeId) (distance : Option Nat) : Prop :=
  hops.get? node = distance

section

variable {around layers layers' : Layers} {context : Context}

theorem Inserts.refers (h : Inserts around seam layers layers') {t : Token} {n n' : NodeId}
    (noted : Lists ν.long n (layers.hops? t)) (noted' : Lists ν.short n' (layers'.hops? t)) :
    ν.Refers seam n n' := by
  unfold Notes.Refers
  rw [noted, noted']
  exact h.hops t

theorem Inserts.refersUp (h : Inserts around seam layers layers') (lacks : LacksSuper around)
    {t : Token} (spelled : t.lexeme = Keyword.superWord.spelling) {n n' : NodeId}
    (noted : Lists ν.long n (layers.hops? t)) (noted' : Lists ν.short n' (layers'.hops? t)) :
    ν.RefersUp seam n n' := by
  unfold Notes.RefersUp
  rw [noted, noted']
  exact h.hopsUp (spelled ▸ lacks)

mutual

theorem splice_expr (lacks : LacksSuper around) : ∀ (e : Expr) {e' : Expr},
    Inserts around seam layers layers' → e'.bare = e.bare → e.Over Lexical.Spelled →
    Noted (Lists ν.long) (inExpr context layers e) →
    Recorded (Lists ν.short) (inExpr context layers' e') → ExprSplices ν seam e e'
  | .literal value, e', _, same, _, _, _ => by
    obtain rfl := Expr.bare_eq_literal same
    exact .literal value
  | .grouping inner, e', inserts, same, made, noted, recorded => by
    obtain ⟨inner', rfl, copies⟩ := Expr.bare_eq_grouping same
    exact .grouping (splice_expr lacks inner inserts copies (over_grouping made) noted recorded)
  | .unary o right, e', inserts, same, made, noted, recorded => by
    obtain ⟨right', rfl, copies⟩ := Expr.bare_eq_unary same
    exact .unary (splice_expr lacks right inserts copies (over_unary made).2 noted recorded)
  | .binary left o right, e', inserts, same, made, noted, recorded => by
    obtain ⟨left', right', rfl, same₁, same₂⟩ := Expr.bare_eq_binary same
    obtain ⟨made₁, _, made₂⟩ := over_binary made
    simp only [inExpr, noted_append, recorded_append] at noted recorded
    exact .binary (splice_expr lacks left inserts same₁ made₁ noted.1 recorded.1)
      (splice_expr lacks right inserts same₂ made₂ noted.2 recorded.2)
  | .logical left o right, e', inserts, same, made, noted, recorded => by
    obtain ⟨left', right', rfl, same₁, same₂⟩ := Expr.bare_eq_logical same
    obtain ⟨made₁, _, made₂⟩ := over_logical made
    simp only [inExpr, noted_append, recorded_append] at noted recorded
    exact .logical (splice_expr lacks left inserts same₁ made₁ noted.1 recorded.1)
      (splice_expr lacks right inserts same₂ made₂ noted.2 recorded.2)
  | .var n t, e', inserts, same, _, noted, recorded => by
    obtain ⟨n', rfl⟩ := Expr.bare_eq_var same
    simp only [inExpr, noted_append, noted_reference, recorded_append, recorded_reference]
      at noted recorded
    exact .var (inserts.refers noted.2 recorded.2)
  | .assign n t value, e', inserts, same, made, noted, recorded => by
    obtain ⟨n', value', rfl, copies⟩ := Expr.bare_eq_assign same
    simp only [inExpr, noted_append, noted_reference, recorded_append, recorded_reference]
      at noted recorded
    exact .assign (inserts.refers noted.2 recorded.2)
      (splice_expr lacks value inserts copies (over_assign made).2 noted.1 recorded.1)
  | .call callee p arguments, e', inserts, same, made, noted, recorded => by
    obtain ⟨callee', arguments', rfl, same₁, same₂⟩ := Expr.bare_eq_call same
    obtain ⟨made₁, made₂, _⟩ := over_call made
    simp only [inExpr, noted_append, recorded_append] at noted recorded
    exact .call (splice_expr lacks callee inserts same₁ made₁ noted.1 recorded.1)
      (splice_exprs lacks arguments inserts same₂ made₂ noted.2 recorded.2)
  | .get object t, e', inserts, same, made, noted, recorded => by
    obtain ⟨object', rfl, copies⟩ := Expr.bare_eq_get same
    exact .get (splice_expr lacks object inserts copies (over_get made).1 noted recorded)
  | .set object t value, e', inserts, same, made, noted, recorded => by
    obtain ⟨object', value', rfl, same₁, same₂⟩ := Expr.bare_eq_set same
    obtain ⟨made₁, _, made₂⟩ := over_set made
    simp only [inExpr, noted_append, recorded_append] at noted recorded
    exact .set (splice_expr lacks object inserts same₁ made₁ noted.2 recorded.2)
      (splice_expr lacks value inserts same₂ made₂ noted.1 recorded.1)
  | .thisRef n t, e', inserts, same, _, noted, recorded => by
    obtain ⟨n', rfl⟩ := Expr.bare_eq_thisRef same
    -- outside of every class there would be an error
    have inside : context.classContext ≠ .outside := by
      intro outside
      simp [inExpr, outside, Noted, Findings.errorIf] at noted
    simp only [inExpr, if_neg inside, noted_reference, recorded_reference] at noted recorded
    exact .thisRef (inserts.refers noted recorded)
  | .superRef n t u, e', inserts, same, made, noted, recorded => by
    obtain ⟨n', rfl⟩ := Expr.bare_eq_superRef same
    obtain ⟨⟨spelled, kind⟩, _⟩ := over_superRef made
    simp only [inExpr, noted_append, noted_reference, recorded_append, recorded_reference]
      at noted recorded
    exact .superRef (inserts.refersUp lacks (spelled.2 _ kind) noted.2 recorded.2)

theorem splice_exprs (lacks : LacksSuper around) : ∀ (es : List Expr) {es' : List Expr},
    Inserts around seam layers layers' → Expr.bareAll es' = Expr.bareAll es →
    (∀ e ∈ es, e.Over Lexical.Spelled) →
    Noted (Lists ν.long) (inArguments context layers es) →
    Recorded (Lists ν.short) (inArguments context layers' es') → ExprsSplice ν seam es es'
  | [], es', _, same, _, _, _ => by
    obtain rfl := Expr.bareAll_eq_nil same
    exact .nil
  | e :: rest, es', inserts, same, made, noted, recorded => by
    obtain ⟨e', rest', rfl, same₁, same₂⟩ := Expr.bareAll_eq_cons same
    obtain ⟨made₁, made₂⟩ := List.forall_mem_cons.mp made
    simp only [inArguments, noted_append, recorded_append] at noted recorded
    exact .cons (splice_expr lacks e inserts same₁ made₁ noted.1 recorded.1)
      (splice_exprs lacks rest inserts same₂ made₂ noted.2 recorded.2)

end

theorem splice_option (lacks : LacksSuper around) {o o' : Option Expr}
    (inserts : Inserts around seam layers layers') (same : o'.map Expr.bare = o.map Expr.bare)
    (made : Expr.OptionOver Lexical.Spelled o)
    (noted : Noted (Lists ν.long) (inOption context layers o))
    (recorded : Recorded (Lists ν.short) (inOption context layers' o')) :
    OptionSplices ν seam o o' := by
  cases o with
  | none =>
    cases o' with
    | none => exact .none
    | some e' => cases same
  | some e =>
    cases o' with
    | none => cases same
    | some e' =>
      exact .some (splice_expr lacks e inserts (Option.some.inj same) (made e rfl) noted recorded)

theorem splice_superclass (lacks : LacksSuper around) {o o' : Option Expr} {name : Token}
    (inserts : Inserts around seam layers layers') (same : o'.map Expr.bare = o.map Expr.bare)
    (made : Expr.OptionOver Lexical.Spelled o)
    (noted : Noted (Lists ν.long) (inSuperclass context layers name o))
    (recorded : Recorded (Lists ν.short) (inSuperclass context layers' name o')) :
    OptionSplices ν seam o o' := by
  cases o with
  | none =>
    cases o' with
    | none => exact .none
    | some e' => cases same
  | some e =>
    cases o' with
    | none => cases same
    | some e' =>
      simp only [inSuperclass, noted_append, recorded_append] at noted recorded
      exact .some (splice_expr lacks e inserts (Option.some.inj same) (made e rfl) noted.2
        recorded.2)

end

mutual

theorem splice_stmt {around : Layers} (lacks : LacksSuper around) : ∀ (s : Stmt) {s' : Stmt}
    {seam : Seam} {layers layers' : Layers} {context : Context},
    Inserts around seam layers layers' → (seam = some 0 → declared? s = none) → WellFormed s →
    s'.bare = s.bare → s.Over Lexical.Spelled →
    Noted (Lists ν.long) (inStmt context layers s) →
    Recorded (Lists ν.short) (inStmt context layers' s') → StmtSplices ν seam s s'
  | .expression e, s', _, _, _, _, inserts, _, _, same, made, noted, recorded => by
    obtain ⟨e', rfl, copies⟩ := Stmt.bare_eq_expression same
    rw [inStmt] at noted recorded
    exact .expression (splice_expr lacks e inserts copies made noted recorded)
  | .print t e, s', _, _, _, _, inserts, _, _, same, made, noted, recorded => by
    obtain ⟨e', rfl, copies⟩ := Stmt.bare_eq_print same
    rw [inStmt] at noted recorded
    exact .print (splice_expr lacks e inserts copies made.2 noted recorded)
  | .varDecl t o, s', _, _, _, _, inserts, plain, _, same, made, noted, recorded => by
    obtain ⟨o', rfl, copies⟩ := Stmt.bare_eq_varDecl same
    have inside : _ ≠ some 0 := fun here => nomatch plain here
    simp only [inStmt, noted_append, recorded_append] at noted recorded
    exact .varDecl inside (splice_option lacks (inserts.mark inside t .declared) copies made.2
      noted.2 recorded.2)
  | .block body, s', _, _, _, _, inserts, _, formed, same, made, noted, recorded => by
    obtain ⟨body', rfl, copies⟩ := Stmt.bare_eq_block same
    rw [inStmt] at noted recorded
    exact .block (splice_stmts lacks body (.inner _ inserts) (Seam.inner_ne _) formed copies made
      noted recorded)
  | .ifElse c b none, s', _, _, _, _, inserts, _, formed, same, made, noted, recorded => by
    obtain ⟨c', b', o', rfl, same₁, same₂, absent⟩ := Stmt.bare_eq_ifElse same
    cases o' with
    | some _ => cases absent
    | none =>
      simp only [inStmt, noted_append, recorded_append] at noted recorded
      exact .ifThen (splice_expr lacks c inserts same₁ made.1 noted.1 recorded.1)
        (splice_stmt lacks b inserts (fun _ => formed.1) formed.2 same₂ made.2.1 noted.2
          recorded.2)
  | .ifElse c b (some d), s', _, _, _, _, inserts, _, formed, same, made, noted, recorded => by
    obtain ⟨c', b', o', rfl, same₁, same₂, present⟩ := Stmt.bare_eq_ifElse same
    cases o' with
    | none => cases present
    | some d' =>
      have same₃ : d'.bare = d.bare := Option.some.inj present
      obtain ⟨⟨plain₁, formed₁⟩, plain₂, formed₂⟩ := formed
      simp only [inStmt, noted_append, recorded_append] at noted recorded
      exact .ifElse (splice_expr lacks c inserts same₁ made.1 noted.1.1 recorded.1.1)
        (splice_stmt lacks b inserts (fun _ => plain₁) formed₁ same₂ made.2.1 noted.1.2
          recorded.1.2)
        (splice_stmt lacks d (inserts.after formed₁ (fun _ => plain₁) same₂) (fun _ => plain₂)
          formed₂ same₃ made.2.2 noted.2 recorded.2)
  | .whileLoop c b, s', _, _, _, _, inserts, _, formed, same, made, noted, recorded => by
    obtain ⟨c', b', rfl, same₁, same₂⟩ := Stmt.bare_eq_whileLoop same
    simp only [inStmt, noted_append, recorded_append] at noted recorded
    exact .whileLoop (splice_expr lacks c inserts same₁ made.1 noted.1 recorded.1)
      (splice_stmt lacks b inserts (fun _ => formed.1) formed.2 same₂ made.2 noted.2 recorded.2)
  | .funDecl f, s', _, _, _, _, inserts, plain, formed, same, made, noted, recorded => by
    obtain ⟨f', rfl, copies⟩ := Stmt.bare_eq_funDecl same
    have inside : _ ≠ some 0 := fun here => nomatch plain here
    have name : f'.name = f.name := by
      obtain ⟨_, _, _⟩ := f
      obtain ⟨_, _, _⟩ := f'
      injection copies with name
    simp only [inStmt, noted_append, recorded_append, name] at noted recorded
    exact .funDecl inside (splice_function lacks f (inserts.mark inside f.name .defined) formed
      copies made noted.2 recorded.2)
  | .ret t o, s', _, _, _, _, inserts, _, _, same, made, noted, recorded => by
    obtain ⟨o', rfl, copies⟩ := Stmt.bare_eq_ret same
    simp only [inStmt, noted_append, recorded_append] at noted recorded
    exact .ret (splice_option lacks inserts copies made.2 noted.2 recorded.2)
  | .classDecl t o fs, s', _, _, _, _, inserts, plain, formed, same, made, noted, recorded => by
    obtain ⟨o', fs', rfl, same₁, same₂⟩ := Stmt.bare_eq_classDecl same
    have inside : _ ≠ some 0 := fun here => nomatch plain here
    have derived : o'.isSome = o.isSome := by
      have both := congrArg Option.isSome same₁
      simpa using both
    simp only [inStmt, noted_append, recorded_append, derived] at noted recorded
    have known := inserts.mark inside t .defined
    exact .classDecl inside
      (splice_superclass lacks known same₁ made.2.1 noted.1.2 recorded.1.2)
      (splice_methods lacks fs (known.ofClass o.isSome) formed.2 same₂ made.2.2 noted.2
        recorded.2)

theorem splice_stmts {around : Layers} (lacks : LacksSuper around) : ∀ (ss : List Stmt)
    {ss' : List Stmt} {seam : Seam} {layers layers' : Layers} {context : Context},
    Inserts around seam layers layers' → seam ≠ some 0 → AllWellFormed ss →
    Stmt.bareAll ss' = Stmt.bareAll ss → Stmt.AllOver Lexical.Spelled ss →
    Noted (Lists ν.long) (inStmts context layers ss) →
    Recorded (Lists ν.short) (inStmts context layers' ss') → StmtsSplice ν seam ss ss'
  | [], ss', _, _, _, _, _, _, _, same, _, _, _ => by
    obtain rfl := Stmt.bareAll_eq_nil same
    exact .nil
  | s :: rest, ss', _, _, _, _, inserts, inside, formed, same, made, noted, recorded => by
    obtain ⟨s', rest', rfl, same₁, same₂⟩ := Stmt.bareAll_eq_cons same
    simp only [inStmts, noted_append, recorded_append] at noted recorded
    have plain : _ = some 0 → declared? s = none := fun here => absurd here inside
    exact .cons
      (splice_stmt lacks s inserts plain formed.1 same₁ made.1 noted.1 recorded.1)
      (splice_stmts lacks rest (inserts.after formed.1 plain same₁) inside formed.2 same₂ made.2
        noted.2 recorded.2)

theorem splice_function {around : Layers} (lacks : LacksSuper around) : ∀ (f : FunctionDecl)
    {f' : FunctionDecl} {seam : Seam} {layers layers' : Layers} {context : Context}
    {kind : RoutineContext}, Inserts around seam layers layers' → RoutineWellFormed f →
    f'.bare = f.bare → f.Over Lexical.Spelled →
    Noted (Lists ν.long) (inFunction context kind layers f) →
    Recorded (Lists ν.short) (inFunction context kind layers' f') → FunctionSplices ν seam f f'
  | ⟨name, params, body⟩, ⟨name', params', body'⟩, _, _, _, _, _, inserts, formed, same, made,
      noted, recorded => by
    injection same with hname hparams copies
    subst hname hparams
    simp only [inFunction, noted_append, recorded_append] at noted recorded
    exact .mk (splice_stmts lacks body (inserts.body params') (Seam.inner_ne _) formed copies
      made.2.2 noted.2 recorded.2)

theorem splice_methods {around : Layers} (lacks : LacksSuper around) :
    ∀ (fs : List FunctionDecl) {fs' : List FunctionDecl} {seam : Seam} {layers layers' : Layers}
    {context : Context}, Inserts around seam layers layers' → MethodsWellFormed fs →
    FunctionDecl.bareAll fs' = FunctionDecl.bareAll fs →
    FunctionDecl.AllOver Lexical.Spelled fs →
    Noted (Lists ν.long) (inMethods context layers fs) →
    Recorded (Lists ν.short) (inMethods context layers' fs') → MethodsSplice ν seam fs fs'
  | [], fs', _, _, _, _, _, _, same, _, _, _ => by
    obtain rfl := FunctionDecl.bareAll_eq_nil same
    exact .nil
  | f :: rest, fs', _, _, _, _, inserts, formed, same, made, noted, recorded => by
    obtain ⟨f', rest', rfl, same₁, same₂⟩ := FunctionDecl.bareAll_eq_cons same
    have kind : methodContext f' = methodContext f := by
      obtain ⟨_, _, _⟩ := f
      obtain ⟨_, _, _⟩ := f'
      injection same₁ with name
      subst name
      rfl
    simp only [inMethods, noted_append, recorded_append, kind] at noted recorded
    exact .cons (splice_function lacks f inserts formed.1 same₁ made.1 noted.1 recorded.1)
      (splice_methods lacks rest inserts formed.2 same₂ made.2 noted.2 recorded.2)

end

end Lox.Evaluation
