import Lox.Proofs.Lexical.LongestMatch
import Lox.Proofs.Mirror.Refusals
import Lox.Proofs.Mirror.Respelling

/-! # Renaming a local variable changes nothing

  A program and what it becomes when a local variable is renamed mirror each other: the
  frames of the variable's scope have the variable under another name, and every reference to
  it looks for it there. So the renamed program is accepted, its references are bound as
  before, and whatever session it is run in, it prints the same and ends in the same way
  (`renaming_changes_nothing`).
-/

namespace Lox.Evaluation

open Binding

/-! ### The mirror of a renaming -/

/-- Whether a variable may be renamed so: the names are different, and no keywords. -/
structure Proper (ρ : Renaming) : Prop where
  different : ρ.old ≠ ρ.new
  old : ∀ k : Keyword, ρ.old ≠ k.spelling
  new : ∀ k : Keyword, ρ.new ≠ k.spelling

/-- Programs in which a variable is renamed. The scopes of the variable are of a kind of
    their own. -/
def respelling {ρ : Renaming} (proper : Proper ρ) (N : NodeId → Option Nat → Prop) :
    Mirror Bool where
  token t t' := t' = t ∨ t' = ρ.token t
  node n n' distance := N n distance ∧ N n' distance
  names
    | false, a, b => a = b
    | true, a, b => a ≠ ρ.new ∧ b = ρ.name a
  plain := false
  kind_eq := by
    rintro t t' (rfl | rfl)
    · rfl
    · rfl
  self_token := by
    rintro t t' (rfl | rfl)
    · exact .inl rfl
    · exact .inl rfl
  names_plain := Iff.rfl
  names_inj := by
    rintro (_ | _) a a' b b' ha hb
    · subst ha hb
      exact Iff.rfl
    · rw [ha.2, hb.2]
      exact (ρ.name_inj ha.1 hb.1).symm
  names_this := by
    rintro (_ | _)
    · rfl
    · exact ⟨(proper.new .thisWord).symm, (ρ.name_of_ne (proper.old .thisWord).symm).symm⟩

theorem outward_eq {κ : Type} : ∀ {env : List κ} {distance : Nat}, distance < env.length →
    outward env distance = env[distance]?
  | [], _, below => absurd below (Nat.not_lt_zero _)
  | [_], 0, _ => rfl
  | [_], _ + 1, below => absurd (Nat.lt_of_succ_lt_succ below) (Nat.not_lt_zero _)
  | _ :: _ :: _, 0, _ => rfl
  | _ :: k :: outer, distance + 1, below => by
    rw [outward, List.getElem?_cons_succ]
    exact outward_eq (Nat.lt_of_succ_lt_succ below)

/-- Whether a distance is noted for a node, and the variable is renamed according to it. -/
def Found (ρ : Renaming) (N : NodeId → Option Nat → Prop) (n : NodeId)
    (distance : Option Nat) : Prop :=
  N n distance ∧ ρ.hops n = distance

section

variable {ρ : Renaming} {N : NodeId → Option Nat → Prop} (proper : Proper ρ) {depth : Nat}
  {env : List Bool} {layers layers' : Layers}

theorem same_token (N : NodeId → Option Nat → Prop) (t : Token) :
    (respelling proper N).token t t := .inl rfl

/-- A reference inside of the variable's scope, and what becomes of it. -/
theorem renamed_reference (h : Beside ρ depth env layers layers') {n : NodeId} {t : Token}
    (known : t.lexeme ≠ ρ.new) (noted : Found ρ N n (layers.hops? t)) :
    (respelling proper N).Refers env n t n (ρ.reference depth n t) ∧
      layers'.hops? (ρ.reference depth n t) = layers.hops? t ∧
      layers'.initializes (ρ.reference depth n t) = layers.initializes t := by
  have kind : ∀ {distance}, layers.hops? t = some distance →
      outward env distance = some (distance == depth) := by
    intro distance found
    have below := hops?_lt found
    rw [outward_eq (h.length_eq ▸ Nat.lt_succ_of_lt below), h.kind_eq below]
  obtain ⟨noted, same⟩ := noted
  unfold Renaming.reference
  rw [same]
  -- the distance tells whether it is the renamed variable that is referred to
  by_cases found : layers.hops? t = some depth
  · rw [if_pos found]
    obtain ⟨hops, initializes⟩ := h.bound known found
    rw [found] at noted
    refine ⟨⟨.inr rfl, .inl ⟨depth, ⟨noted, noted⟩, ?_⟩⟩, hops.trans found.symm, initializes⟩
    intro k same
    rw [kind found, beq_self_eq_true] at same
    cases same
    exact ⟨known, rfl⟩
  · rw [if_neg found]
    obtain ⟨hops, initializes⟩ := h.unbound known found
    refine ⟨⟨.inl rfl, ?_⟩, hops, initializes⟩
    cases free : layers.hops? t with
    | none =>
      rw [free] at noted
      exact .inr ⟨⟨noted, noted⟩, rfl⟩
    | some distance =>
      rw [free] at noted
      refine .inl ⟨distance, ⟨noted, noted⟩, ?_⟩
      intro k same
      have other : (distance == depth) = false :=
        beq_false_of_ne fun same => found (same ▸ free)
      rw [kind free, other] at same
      cases same
      rfl

/-- A reference that is no reference to a variable stays as it is. -/
theorem kept_reference (h : Beside ρ depth env layers layers') {n : NodeId} {t : Token}
    {k : Keyword} (admits : ρ.Admits t) (keyword : t.kind = .keyword k)
    (noted : Found ρ N n (layers.hops? t)) :
    (respelling proper N).Refers env n t n t ∧ layers'.hops? t = layers.hops? t := by
  have same : ρ.reference depth n t = t := by
    unfold Renaming.reference
    rw [ρ.token_of_ne (admits.2 k keyword), ite_self]
  obtain ⟨refers, hops, _⟩ := renamed_reference proper h admits.1 noted
  rw [same] at refers hops
  exact ⟨refers, hops⟩

theorem follows_reference {n : NodeId} {t t' : Token}
    (token : t' = t ∨ t' = ρ.token t) (hops : layers'.hops? t' = layers.hops? t) :
    Follows ρ (.reference layers n t) (.reference layers' n t') :=
  ⟨rfl, .cons ⟨rfl, hops, token⟩ .nil⟩

/-! ### Inside of the variable's scope -/

mutual

theorem renamed_expr : ∀ (e : Expr) {context : Context} {layers layers' : Layers},
    Beside ρ depth env layers layers' → e.Over ρ.Admits →
    Noted (Found ρ N) (inExpr context layers e) →
    Follows ρ (inExpr context layers e) (inExpr context layers' (ρ.expr depth e)) ∧
      ExprMirrors (respelling proper N) env e (ρ.expr depth e)
  | .literal value, _, _, _, _, _, _ => ⟨follows_none, .literal value⟩
  | .grouping inner, _, _, _, h, made, noted => by
    obtain ⟨follows, mirrors⟩ := renamed_expr inner h (over_grouping made) noted
    exact ⟨follows, .grouping mirrors⟩
  | .unary o right, _, _, _, h, made, noted => by
    obtain ⟨follows, mirrors⟩ := renamed_expr right h (over_unary made).2 noted
    exact ⟨follows, .unary (same_token proper N o) mirrors⟩
  | .binary left o right, _, _, _, h, made, noted => by
    obtain ⟨made₁, _, made₂⟩ := over_binary made
    simp only [inExpr, noted_append] at noted
    obtain ⟨follows₁, mirrors₁⟩ := renamed_expr left h made₁ noted.1
    obtain ⟨follows₂, mirrors₂⟩ := renamed_expr right h made₂ noted.2
    exact ⟨follows₁.append follows₂, .binary mirrors₁ (same_token proper N o) mirrors₂⟩
  | .logical left o right, _, _, _, h, made, noted => by
    obtain ⟨made₁, _, made₂⟩ := over_logical made
    simp only [inExpr, noted_append] at noted
    obtain ⟨follows₁, mirrors₁⟩ := renamed_expr left h made₁ noted.1
    obtain ⟨follows₂, mirrors₂⟩ := renamed_expr right h made₂ noted.2
    exact ⟨follows₁.append follows₂, .logical mirrors₁ (same_token proper N o) mirrors₂⟩
  | .var n t, _, _, _, h, made, noted => by
    simp only [inExpr, noted_append, noted_errorIf, noted_reference] at noted
    obtain ⟨refers, hops, initializes⟩ := renamed_reference proper h (over_var made).1 noted.2
    exact ⟨(follows_errorIf initializes noted.1).append (follows_reference refers.1 hops),
      .var refers⟩
  | .assign n t value, _, _, _, h, made, noted => by
    obtain ⟨admits, made⟩ := over_assign made
    simp only [inExpr, noted_append, noted_reference] at noted
    obtain ⟨refers, hops, _⟩ := renamed_reference proper h admits.1 noted.2
    obtain ⟨follows, mirrors⟩ := renamed_expr value h made noted.1
    exact ⟨follows.append (follows_reference refers.1 hops), .assign refers mirrors⟩
  | .call callee p arguments, _, _, _, h, made, noted => by
    obtain ⟨made₁, made₂, _⟩ := over_call made
    simp only [inExpr, noted_append] at noted
    obtain ⟨follows₁, mirrors₁⟩ := renamed_expr callee h made₁ noted.1
    obtain ⟨follows₂, mirrors₂⟩ := renamed_exprs arguments h made₂ noted.2
    exact ⟨follows₁.append follows₂, .call mirrors₁ (same_token proper N p) mirrors₂⟩
  | .get object t, _, _, _, h, made, noted => by
    obtain ⟨follows, mirrors⟩ := renamed_expr object h (over_get made).1 noted
    exact ⟨follows, .get mirrors ⟨same_token proper N t, rfl⟩⟩
  | .set object t value, _, _, _, h, made, noted => by
    obtain ⟨made₁, _, made₂⟩ := over_set made
    simp only [inExpr, noted_append] at noted
    obtain ⟨follows₂, mirrors₂⟩ := renamed_expr value h made₂ noted.1
    obtain ⟨follows₁, mirrors₁⟩ := renamed_expr object h made₁ noted.2
    exact ⟨follows₂.append follows₁, .set mirrors₁ ⟨same_token proper N t, rfl⟩ mirrors₂⟩
  | .thisRef n t, context, _, _, h, made, noted => by
    obtain ⟨admits, keyword⟩ := over_thisRef made
    -- outside of every class there would be an error
    have inside : context.classContext ≠ .outside := by
      intro outside
      simp [inExpr, outside, Noted, Findings.errorIf] at noted
    simp only [Renaming.expr, inExpr, if_neg inside, noted_reference] at noted ⊢
    obtain ⟨refers, hops⟩ := kept_reference proper h admits keyword noted
    exact ⟨follows_reference (.inl rfl) hops, .thisRef refers⟩
  | .superRef n t u, _, _, _, h, made, noted => by
    obtain ⟨⟨admits, keyword⟩, _⟩ := over_superRef made
    simp only [inExpr, superErrors, noted_append, noted_errorIf, noted_reference] at noted
    obtain ⟨refers, hops⟩ := kept_reference proper h admits keyword noted.2
    exact ⟨((follows_errorIf rfl noted.1.1).append (follows_errorIf rfl noted.1.2)).append
      (follows_reference (.inl rfl) hops), .superRef refers ⟨same_token proper N u, rfl⟩⟩

theorem renamed_exprs : ∀ (es : List Expr) {context : Context} {layers layers' : Layers},
    Beside ρ depth env layers layers' → (∀ e ∈ es, e.Over ρ.Admits) →
    Noted (Found ρ N) (inArguments context layers es) →
    Follows ρ (inArguments context layers es) (inArguments context layers' (ρ.exprs depth es)) ∧
      ExprsMirror (respelling proper N) env es (ρ.exprs depth es)
  | [], _, _, _, _, _, _ => ⟨follows_none, .nil⟩
  | e :: rest, _, _, _, h, made, noted => by
    obtain ⟨made₁, made₂⟩ := List.forall_mem_cons.mp made
    simp only [inArguments, noted_append] at noted
    obtain ⟨follows₁, mirrors₁⟩ := renamed_expr e h made₁ noted.1
    obtain ⟨follows₂, mirrors₂⟩ := renamed_exprs rest h made₂ noted.2
    exact ⟨follows₁.append follows₂, .cons mirrors₁ mirrors₂⟩

end

theorem renamed_option {o : Option Expr} {context : Context}
    (h : Beside ρ depth env layers layers') (made : Expr.OptionOver ρ.Admits o)
    (noted : Noted (Found ρ N) (inOption context layers o)) :
    Follows ρ (inOption context layers o)
        (inOption context layers' (o.map (ρ.expr depth))) ∧
      Option.Rel (ExprMirrors (respelling proper N) env) o (o.map (ρ.expr depth)) := by
  cases o with
  | none => exact ⟨follows_none, .none⟩
  | some e =>
    obtain ⟨follows, mirrors⟩ := renamed_expr proper e h (made e rfl) noted
    exact ⟨follows, .some mirrors⟩

/-- A class that does not inherit from itself does not so either once its superclass is spelled
    anew. -/
theorem follows_selfInheritance {name : Token} (known : name.lexeme ≠ ρ.new) (e : Expr)
    (noted : Noted (Found ρ N) (selfInheritance name e)) :
    Follows ρ (selfInheritance name e) (selfInheritance name (ρ.expr depth e)) := by
  cases e with
  | var n t =>
    have other : (t.lexeme == name.lexeme) = false := noted_errorIf.mp noted
    refine follows_errorIf ?_ other
    rw [other, beq_eq_false_iff_ne]
    unfold Renaming.reference
    split
    · rw [Renaming.lexeme_token, Renaming.name]
      split
      · exact known.symm
      · exact beq_eq_false_iff_ne.mp other
    · exact beq_eq_false_iff_ne.mp other
  | _ => exact follows_none

theorem renamed_superclass {o : Option Expr} {name : Token} {context : Context}
    (h : Beside ρ depth env layers layers') (known : name.lexeme ≠ ρ.new)
    (made : Expr.OptionOver ρ.Admits o)
    (noted : Noted (Found ρ N) (inSuperclass context layers name o)) :
    Follows ρ (inSuperclass context layers name o)
        (inSuperclass context layers' name (o.map (ρ.expr depth))) ∧
      Option.Rel (ExprMirrors (respelling proper N) env) o (o.map (ρ.expr depth)) := by
  cases o with
  | none => exact ⟨follows_none, .none⟩
  | some e =>
    simp only [inSuperclass, noted_append] at noted
    obtain ⟨follows, mirrors⟩ := renamed_expr proper e h (made e rfl) noted.2
    exact ⟨(follows_selfInheritance known e noted.1).append follows, .some mirrors⟩

theorem renamed_declaration (N : NodeId → Option Nat → Prop)
    (h : Beside ρ depth env layers layers') {t : Token} (known : t.lexeme ≠ ρ.new) :
    (respelling proper N).Declares env t (ρ.declaration depth t) := by
  cases h with
  | here =>
    refine ⟨.inr rfl, fun k same => ?_⟩
    cases same
    exact ⟨known, rfl⟩
  | inside =>
    refine ⟨.inl rfl, fun k same => ?_⟩
    cases same
    rfl

theorem renamed_params {k : Bool} (h : Beside ρ depth (k :: env) layers layers')
    {params : List Token} (known : ∀ param ∈ params, param.lexeme ≠ ρ.new) :
    (respelling proper N).Params k params (params.map (ρ.declaration depth)) := by
  refine List.forall₂_map_right_iff.mpr (List.forall₂_same.mpr fun param mem => ?_)
  obtain ⟨token, names⟩ := renamed_declaration proper N h (known param mem)
  exact ⟨token, names k rfl⟩

mutual

theorem renamed_stmt : ∀ (s : Stmt) {context : Context} {depth : Nat} {env : List Bool}
    {layers layers' : Layers}, Beside ρ depth env layers layers' → s.Over ρ.Admits →
    (depth = 0 → Spares ρ.old s) → Noted (Found ρ N) (inStmt context layers s) →
    Follows ρ (inStmt context layers s) (inStmt context layers' (ρ.stmt depth s)) ∧
      StmtMirrors (respelling proper N) env s (ρ.stmt depth s)
  | .expression e, _, _, _, _, _, h, made, _, noted => by
    obtain ⟨follows, mirrors⟩ := renamed_expr proper e h made noted
    exact ⟨follows, .expression mirrors⟩
  | .print t e, _, _, _, _, _, h, made, _, noted => by
    obtain ⟨follows, mirrors⟩ := renamed_expr proper e h made.2 noted
    exact ⟨follows, .print (same_token proper N t) mirrors⟩
  | .varDecl t o, _, _, _, _, _, h, made, _, noted => by
    simp only [inStmt, redeclaration, noted_append, noted_errorIf] at noted
    have inside := h.mark proper.different made.1.1.1 .declared
    obtain ⟨follows, mirrors⟩ := renamed_option proper inside made.2 noted.2
    exact ⟨(follows_redeclaration h made.1.1.1 noted.1).append follows,
      .varDecl (renamed_declaration proper N h made.1.1.1) mirrors⟩
  | .block body, _, _, _, _, _, h, made, _, noted => by
    obtain ⟨follows, mirrors⟩ := renamed_stmts body h.nest made nofun noted
    exact ⟨follows, .block false mirrors⟩
  | .ifElse c a none, _, _, _, _, _, h, made, spared, noted => by
    simp only [inStmt, noted_append] at noted
    obtain ⟨follows₁, mirrors₁⟩ := renamed_expr proper c h made.1 noted.1
    obtain ⟨follows₂, mirrors₂⟩ := renamed_stmt a h made.2.1 spared noted.2
    exact ⟨follows₁.append follows₂, .ifThen mirrors₁ mirrors₂⟩
  | .ifElse c a (some b), _, _, _, _, _, h, made, spared, noted => by
    simp only [inStmt, noted_append] at noted
    have spared₁ := fun outermost => (spared outermost).1
    have after := h.after proper.different a made.2.1 spared₁
    obtain ⟨follows₁, mirrors₁⟩ := renamed_expr proper c h made.1 noted.1.1
    obtain ⟨follows₂, mirrors₂⟩ := renamed_stmt a h made.2.1 spared₁ noted.1.2
    obtain ⟨follows₃, mirrors₃⟩ :=
      renamed_stmt b after made.2.2 (fun outermost => (spared outermost).2) noted.2
    exact ⟨(follows₁.append follows₂).append follows₃, .ifElse mirrors₁ mirrors₂ mirrors₃⟩
  | .whileLoop c a, _, _, _, _, _, h, made, spared, noted => by
    simp only [inStmt, noted_append] at noted
    obtain ⟨follows₁, mirrors₁⟩ := renamed_expr proper c h made.1 noted.1
    obtain ⟨follows₂, mirrors₂⟩ := renamed_stmt a h made.2 spared noted.2
    exact ⟨follows₁.append follows₂, .whileLoop mirrors₁ mirrors₂⟩
  | .funDecl f, _, depth, _, _, layers', h, made, spared, noted => by
    have known := (name_over made).1
    have same := declaration_of_ne spared
    have name := name_function ρ (depth + 1) f
    simp only [inStmt, redeclaration, noted_append, noted_errorIf] at noted
    have inside := (h.mark proper.different known .defined).nest
    obtain ⟨follows, mirrors⟩ := renamed_function f inside made nofun noted.2
    have first := follows_redeclaration h known noted.1
    have declares := renamed_declaration proper N h known
    rw [same] at first follows declares
    simp only [Renaming.stmt, inStmt, name]
    exact ⟨first.append follows, .funDecl (name.symm ▸ declares) mirrors⟩
  | .ret t o, _, depth, _, _, _, h, made, _, noted => by
    simp only [inStmt, returnErrors, noted_append, noted_errorIf] at noted
    obtain ⟨follows, mirrors⟩ := renamed_option proper h made.2 noted.2
    have same : (o.map (ρ.expr depth)).isSome = o.isSome := Option.isSome_map
    refine ⟨?_, .ret (same_token proper N t) mirrors⟩
    simp only [Renaming.stmt, inStmt, returnErrors, same]
    exact ((follows_errorIf rfl noted.1.1).append (follows_errorIf rfl noted.1.2)).append follows
  | .classDecl t o fs, _, depth, _, _, _, h, made, spared, noted => by
    have same := declaration_of_ne spared
    have isSome : (o.map (ρ.expr depth)).isSome = o.isSome := Option.isSome_map
    simp only [inStmt, redeclaration, noted_append, noted_errorIf] at noted
    have inside := h.mark proper.different made.1.1 .defined
    have first := follows_redeclaration h made.1.1 noted.1.1
    have declares := renamed_declaration proper N h made.1.1
    rw [same] at inside first declares
    obtain ⟨follows₁, mirrors₁⟩ := renamed_superclass proper inside made.1.1 made.2.1 noted.1.2
    obtain ⟨follows₂, mirrors₂⟩ :=
      renamed_methods fs (inside.ofClass proper.new o.isSome) made.2.2 noted.2
    simp only [Renaming.stmt, inStmt, isSome]
    exact ⟨(first.append follows₁).append follows₂, .classDecl declares rfl mirrors₁ mirrors₂⟩

theorem renamed_stmts : ∀ (ss : List Stmt) {context : Context} {depth : Nat} {env : List Bool}
    {layers layers' : Layers}, Beside ρ depth env layers layers' → Stmt.AllOver ρ.Admits ss →
    (depth = 0 → ∀ s ∈ ss, Spares ρ.old s) → Noted (Found ρ N) (inStmts context layers ss) →
    Follows ρ (inStmts context layers ss) (inStmts context layers' (ρ.stmts depth ss)) ∧
      StmtsMirror (respelling proper N) env ss (ρ.stmts depth ss)
  | [], _, _, _, _, _, _, _, _, _ => ⟨follows_none, .nil⟩
  | s :: rest, _, _, _, _, _, h, made, spared, noted => by
    simp only [inStmts, noted_append] at noted
    have spared₁ := fun outermost => spared outermost s (List.mem_cons_self ..)
    have spared₂ := fun outermost s' mem => spared outermost s' (List.mem_cons_of_mem s mem)
    obtain ⟨follows₁, mirrors₁⟩ := renamed_stmt s h made.1 spared₁ noted.1
    obtain ⟨follows₂, mirrors₂⟩ :=
      renamed_stmts rest (h.after proper.different s made.1 spared₁) made.2 spared₂ noted.2
    exact ⟨follows₁.append follows₂, .cons mirrors₁ mirrors₂⟩

theorem renamed_function : ∀ (f : FunctionDecl) {context : Context} {kind : RoutineContext}
    {depth : Nat} {k : Bool} {env : List Bool} {layers layers' : Layers},
    Beside ρ depth (k :: env) (.empty :: layers) (.empty :: layers') → f.Over ρ.Admits →
    (depth = 0 → ∀ s ∈ f.body, Spares ρ.old s) →
    Noted (Found ρ N) (inFunction context kind layers f) →
    Follows ρ (inFunction context kind layers f)
        (inFunction context kind layers' (ρ.function depth f)) ∧
      FunctionMirrors (respelling proper N) env f (ρ.function depth f)
  | ⟨name, params, body⟩, _, _, _, k, _, _, _, h, made, spared, noted => by
    simp only [inFunction, noted_append] at noted
    have known : ∀ param ∈ params, param.lexeme ≠ ρ.new := fun param mem =>
      (made.2.1 param mem).1.1
    obtain ⟨follows, mirrors⟩ :=
      renamed_stmts body (h.foldl_define proper.different known) made.2.2 spared noted.2
    exact ⟨(follows_params proper.different h known noted.1).append follows,
      .mk k ⟨same_token proper N name, rfl⟩ (renamed_params proper h known) mirrors⟩

theorem renamed_methods : ∀ (fs : List FunctionDecl) {context : Context} {depth : Nat}
    {env : List Bool} {layers layers' : Layers}, Beside ρ depth env layers layers' →
    FunctionDecl.AllOver ρ.Admits fs → Noted (Found ρ N) (inMethods context layers fs) →
    Follows ρ (inMethods context layers fs)
        (inMethods context layers' (ρ.functions (depth + 1) fs)) ∧
      MethodsMirror (respelling proper N) env fs (ρ.functions (depth + 1) fs)
  | [], _, _, _, _, _, _, _, _ => ⟨follows_none, .nil⟩
  | f :: rest, _, depth, _, _, _, h, made, noted => by
    simp only [inMethods, noted_append] at noted
    have kind : methodContext (ρ.function (depth + 1) f) = methodContext f := by
      unfold methodContext FunctionDecl.isInitializer
      rw [name_function]
    obtain ⟨follows₁, mirrors₁⟩ := renamed_function f h.nest made.1 nofun noted.1
    obtain ⟨follows₂, mirrors₂⟩ := renamed_methods rest h made.2 noted.2
    simp only [Renaming.functions, inMethods, kind]
    exact ⟨follows₁.append follows₂, .cons mirrors₁ mirrors₂⟩

end

/-! ### On the way to the variable's scope -/

theorem copying_widens_respelling (N : NodeId → Option Nat → Prop) :
    (copying relines_eq N N).Widens (fun _ => false) (respelling proper N) :=
  ⟨fun same => .inl same.symm, fun noted => noted, Iff.rfl, rfl⟩

theorem map_plain {us : List Unit} (length : us.length = layers.length + 1) :
    us.map (fun _ => false) = List.replicate (layers.length + 1) false := by
  rw [← length]
  exact List.map_const' ..

theorem length_ofClass {us : List Unit} (derived : Bool) (length : us.length = layers.length + 1) :
    ((copying relines_eq N N).classEnv derived us).length =
      (layers.ofClass derived).length + 1 := by
  cases derived with
  | false => exact congrArg Nat.succ length
  | true => exact congrArg (· + 2) length

theorem name_renamed {f f' : FunctionDecl} (renamed : FunctionRenamed ρ f f') :
    f'.name = f.name := by
  cases renamed with
  | here => exact name_function ρ 0 f
  | within => rfl

/-- What is inside of a statement has no part in what the statement declares. -/
theorem after_renamed {s s' : Stmt} {layers : Layers} (renamed : StmtRenamed ρ s s') :
    layers.after s' = layers.after s := by
  fun_induction Layers.after layers s generalizing s' with
  | case1 => cases renamed
  | case2 =>
    cases renamed with
    | funDecl renamed => rw [Layers.after, name_renamed renamed]
  | case3 =>
    cases renamed with
    | classDecl renamed => rfl
  | case4 _ _ _ ih =>
    cases renamed with
    | thenBranch renamed => rw [Layers.after, ih renamed]
  | case5 _ _ _ _ ih ih' =>
    cases renamed with
    | thenBranch renamed => rw [Layers.after, ih renamed]
    | elseBranch renamed => rw [Layers.after, ih' renamed]
  | case6 _ _ _ ih =>
    cases renamed with
    | loopBody renamed => rw [Layers.after, ih renamed]
  | case7 _ _ _ noFun noClass noThen noElse noLoop =>
    -- of what is left, only a block has a scope inside of it
    cases renamed with
    | block => rfl
    | within => rfl
    | funDecl => exact (noFun _ rfl).elim
    | classDecl => exact (noClass _ _ _ rfl).elim
    | @thenBranch _ _ _ o =>
      cases o with
      | none => exact (noThen _ _ rfl).elim
      | some => exact (noElse _ _ _ rfl).elim
    | elseBranch => exact (noElse _ _ _ rfl).elim
    | loopBody => exact (noLoop _ _ rfl).elim

mutual

/-- A statement with the variable's scope somewhere inside of it. -/
theorem path_stmt {s s' : Stmt} : StmtRenamed ρ s s' → ∀ (context : Context)
    (layers : Layers) (us : List Unit), us.length = layers.length + 1 → Absent ρ.new layers →
    s.Over ρ.Admits → Noted (Found ρ N) (inStmt context layers s) →
    StmtMirrors (copying relines_eq N N) us s s →
    Follows ρ (inStmt context layers s) (inStmt context layers s') ∧
      StmtMirrors (respelling proper N) (us.map fun _ => false) s s'
  | .block declared => by
    intro context layers us length absent made noted _
    -- here the path ends, at the block with the declaration
    have spared := spare_of_declaredIn (List.cons_ne_nil _ _) noted.1 declared
    obtain ⟨follows, mirrors⟩ :=
      renamed_stmts proper _ (.enter absent) made (fun _ => spared) noted
    rw [map_plain length]
    exact ⟨follows, .block true mirrors⟩
  | .within renamed => by
    intro context layers us length absent made noted itself
    cases itself with
    | block k itself =>
      obtain ⟨follows, mirrors⟩ := path_stmts renamed _ (.empty :: layers) (k :: us)
        (congrArg Nat.succ length) (absent.cons rfl) made noted itself
      exact ⟨follows, .block false mirrors⟩
  | .thenBranch renamed => by
    intro context layers us length absent made noted itself
    have wide := copying_widens_respelling proper N
    cases itself with
    | ifThen itself₁ itself₂ =>
      simp only [inStmt, noted_append] at noted
      obtain ⟨follows, mirrors⟩ := path_stmt renamed _ _ _ length absent made.2.1 noted.2 itself₂
      exact ⟨(Follows.refl noted.1.1).append follows, .ifThen (itself₁.widen wide) mirrors⟩
    | ifElse itself₁ itself₂ itself₃ =>
      simp only [inStmt, noted_append] at noted
      obtain ⟨follows, mirrors⟩ := path_stmt renamed _ _ _ length absent made.2.1 noted.1.2 itself₂
      simp only [inStmt, after_renamed renamed]
      exact ⟨((Follows.refl noted.1.1.1).append follows).append (.refl noted.2.1),
        .ifElse (itself₁.widen wide) mirrors (itself₃.widen wide)⟩
  | @StmtRenamed.elseBranch _ _ a _ _ renamed => by
    intro context layers us length absent made noted itself
    have wide := copying_widens_respelling proper N
    cases itself with
    | ifElse itself₁ itself₂ itself₃ =>
      have length' := length.trans (congrArg Nat.succ (length_after layers a).symm)
      simp only [inStmt, noted_append] at noted
      obtain ⟨follows, mirrors⟩ :=
        path_stmt renamed _ _ _ length' (absent.after a made.2.1) made.2.2 noted.2 itself₃
      exact ⟨((Follows.refl noted.1.1.1).append (.refl noted.1.2.1)).append follows,
        .ifElse (itself₁.widen wide) (itself₂.widen wide) mirrors⟩
  | .loopBody renamed => by
    intro context layers us length absent made noted itself
    have wide := copying_widens_respelling proper N
    cases itself with
    | whileLoop itself₁ itself₂ =>
      simp only [inStmt, noted_append] at noted
      obtain ⟨follows, mirrors⟩ := path_stmt renamed _ _ _ length absent made.2 noted.2 itself₂
      exact ⟨(Follows.refl noted.1.1).append follows, .whileLoop (itself₁.widen wide) mirrors⟩
  | @StmtRenamed.funDecl _ f _ renamed => by
    intro context layers us length absent made noted itself
    have wide := copying_widens_respelling proper N
    cases itself with
    | funDecl declares itself =>
      have length' := length.trans (congrArg Nat.succ (length_mark layers f.name .defined).symm)
      simp only [inStmt, noted_append] at noted
      have known := (name_over made).1
      have name := name_renamed renamed
      obtain ⟨follows, mirrors⟩ :=
        path_function renamed _ _ _ _ length' (absent.mark known .defined) made noted.2 itself
      simp only [inStmt, name]
      exact ⟨(Follows.refl noted.1.1).append follows,
        .funDecl (name.symm ▸ declares.widen wide) mirrors⟩
  | @StmtRenamed.classDecl _ name o _ _ renamed => by
    intro context layers us length absent made noted itself
    have wide := copying_widens_respelling proper N
    cases itself with
    | classDecl declares lexeme itself₁ itself₂ =>
      simp only [inStmt, noted_append] at noted
      have known := absent.mark made.1.1 .defined
      obtain ⟨follows, mirrors⟩ := path_methods renamed _ _ _
        (length_ofClass o.isSome (length.trans (congrArg Nat.succ (length_mark ..).symm)))
        (known.ofClass proper.new o.isSome) made.2.2 noted.2 itself₂
      rw [wide.classEnv] at mirrors
      exact ⟨((Follows.refl noted.1.1.1).append (.refl noted.1.2.1)).append follows,
        .classDecl (declares.widen wide) lexeme (optionMirrors_widen wide itself₁) mirrors⟩

/-- Statements with the variable's scope inside of one of them. -/
theorem path_stmts {ss ss' : List Stmt} : StmtsRenamed ρ ss ss' → ∀ (context : Context)
    (layers : Layers) (us : List Unit), us.length = layers.length + 1 → Absent ρ.new layers →
    Stmt.AllOver ρ.Admits ss → Noted (Found ρ N) (inStmts context layers ss) →
    StmtsMirror (copying relines_eq N N) us ss ss →
    Follows ρ (inStmts context layers ss) (inStmts context layers ss') ∧
      StmtsMirror (respelling proper N) (us.map fun _ => false) ss ss'
  | .first renamed => by
    intro context layers us length absent made noted itself
    have wide := copying_widens_respelling proper N
    cases itself with
    | cons itself₁ itself₂ =>
      simp only [inStmts, noted_append] at noted
      obtain ⟨follows, mirrors⟩ := path_stmt renamed _ _ _ length absent made.1 noted.1 itself₁
      simp only [inStmts, after_renamed renamed]
      exact ⟨follows.append (.refl noted.2.1), .cons mirrors (itself₂.widen wide)⟩
  | @StmtsRenamed.later _ s _ _ renamed => by
    intro context layers us length absent made noted itself
    have wide := copying_widens_respelling proper N
    cases itself with
    | cons itself₁ itself₂ =>
      have length' := length.trans (congrArg Nat.succ (length_after layers s).symm)
      simp only [inStmts, noted_append] at noted
      obtain ⟨follows, mirrors⟩ :=
        path_stmts renamed _ _ _ length' (absent.after s made.1) made.2 noted.2 itself₂
      exact ⟨(Follows.refl noted.1.1).append follows, .cons (itself₁.widen wide) mirrors⟩

/-- A function whose variable is renamed, or with the variable's scope inside of it. -/
theorem path_function {f f' : FunctionDecl} : FunctionRenamed ρ f f' → ∀ (context : Context)
    (kind : RoutineContext) (layers : Layers) (us : List Unit),
    us.length = layers.length + 1 → Absent ρ.new layers → f.Over ρ.Admits →
    Noted (Found ρ N) (inFunction context kind layers f) →
    FunctionMirrors (copying relines_eq N N) us f f →
    Follows ρ (inFunction context kind layers f) (inFunction context kind layers f') ∧
      FunctionMirrors (respelling proper N) (us.map fun _ => false) f f'
  | .here declared => by
    intro context kind layers us length absent made noted _
    have spared := spare_of_function noted.1 declared
    obtain ⟨follows, mirrors⟩ :=
      renamed_function proper f (.enter absent) made (fun _ => spared) noted
    rw [map_plain length]
    exact ⟨follows, mirrors⟩
  | @FunctionRenamed.within _ _ params _ _ renamed => by
    intro context kind layers us length absent made noted itself
    have wide := copying_widens_respelling proper N
    cases itself with
    | mk k same plain itself =>
      simp only [inFunction, noted_append] at noted
      have known : ∀ param ∈ params, param.lexeme ≠ ρ.new := fun param mem =>
        (made.2.1 param mem).1.1
      have length' : (bodyLayers layers params).length = layers.length + 1 := length_foldl_define
      obtain ⟨follows, mirrors⟩ := path_stmts renamed _ (bodyLayers layers params) (k :: us)
        (congrArg Nat.succ (length.trans length'.symm))
        ((absent.cons rfl).foldl_define known) made.2.2 noted.2 itself
      exact ⟨(Follows.refl noted.1.1).append follows,
        .mk false (same.widen wide) (plain.widen wide) mirrors⟩

/-- Methods, one of which has a variable renamed. -/
theorem path_methods {fs fs' : List FunctionDecl} : MethodsRenamed ρ fs fs' →
    ∀ (context : Context) (layers : Layers) (us : List Unit), us.length = layers.length + 1 →
    Absent ρ.new layers → FunctionDecl.AllOver ρ.Admits fs →
    Noted (Found ρ N) (inMethods context layers fs) →
    MethodsMirror (copying relines_eq N N) us fs fs →
    Follows ρ (inMethods context layers fs) (inMethods context layers fs') ∧
      MethodsMirror (respelling proper N) (us.map fun _ => false) fs fs'
  | @MethodsRenamed.first _ f f' _ renamed => by
    intro context layers us length absent made noted itself
    have wide := copying_widens_respelling proper N
    cases itself with
    | cons itself₁ itself₂ =>
      simp only [inMethods, noted_append] at noted
      obtain ⟨follows, mirrors⟩ :=
        path_function renamed _ _ _ _ length absent made.1 noted.1 itself₁
      have kind : methodContext f' = methodContext f := by
        unfold methodContext FunctionDecl.isInitializer
        rw [name_renamed renamed]
      simp only [inMethods, kind]
      exact ⟨follows.append (.refl noted.2.1), .cons mirrors (itself₂.widen wide)⟩
  | .later renamed => by
    intro context layers us length absent made noted itself
    have wide := copying_widens_respelling proper N
    cases itself with
    | cons itself₁ itself₂ =>
      simp only [inMethods, noted_append] at noted
      obtain ⟨follows, mirrors⟩ :=
        path_methods renamed _ _ _ length absent made.2 noted.2 itself₂
      exact ⟨(Follows.refl noted.1.1).append follows, .cons (itself₁.widen wide) mirrors⟩

end

end

/-! ### Both programs run -/

/-- Whether two values are the same up to the identities of nodes, or up to the spelling of a
    local variable. -/
def SameButSpelling (v v' : Value) : Prop :=
  SameOutline id v v' ∨ ∃ (ρ : Renaming) (proper : Proper ρ) (N : NodeId → Option Nat → Prop)
    (w : List Bool), ValueMirrors (respelling proper N) w v v'

/-- Whether two errors are the same up to the spelling of a variable, in their tokens and in a
    message about a name that is not in reach. -/
def SameError (ρ : Renaming) (e e' : RuntimeError) : Prop :=
  (e'.token = e.token ∨ e'.token = ρ.token e.token) ∧
    (e'.cause = e.cause ∨ e = .undefined e.token ∧ e' = .undefined e'.token)

/-- Whether two runs print the same, and both come to their end, or stop with the same error,
    or run out of fuel. -/
def SameRun (ρ : Renaming) : EStateM.Result Halt Machine Unit →
    EStateM.Result Halt Machine Unit → Prop
  | .ok () m, .ok () m' => m'.sink = m.sink
  | .error (.fault e) m, .error (.fault e') m' => m'.sink = m.sink ∧ SameError ρ e e'
  | .error .starved m, .error .starved m' => m'.sink = m.sink
  | _, _ => False

section

variable {ρ : Renaming} {host : Host} {s : Session} {source : String} {texts : List String}

theorem ResultMirrors.sameRun {proper : Proper ρ} {N : NodeId → Option Nat → Prop}
    {w : List Bool} {here : Scope} {P : List Bool → Unit → Unit → Prop}
    {r r' : EStateM.Result Halt Machine Unit}
    (h : ResultMirrors (respelling proper N) w here P r r') : SameRun ρ r r' := by
  cases r with
  | ok a m =>
    cases r' with
    | ok b m' =>
      obtain ⟨_, _, mirrors, _⟩ := h
      exact mirrors.sink.symm
    | error e' m' => exact h.elim
  | error e m =>
    cases r' with
    | ok b m' => exact h.elim
    | error e' m' =>
      obtain ⟨_, _, mirrors, halts⟩ := h
      cases halts with
      | fault faults => exact ⟨mirrors.sink.symm, faults.1, faults.2.imp_left Eq.symm⟩
      | starved => exact mirrors.sink.symm

/-- References that differ in spelling only are noted alike. -/
theorem noteReferences_same {rs rs' : List Reference}
    (same : List.Forall₂ (SameReference ρ) rs rs') : ∀ m : Machine,
    m.noteReferences rs' = m.noteReferences rs := by
  induction same with
  | nil => exact fun _ => rfl
  | @cons r r' _ _ first _ ih =>
    intro m
    rw [noteReferences_cons, noteReferences_cons m r, ih]
    have alike : m.noteReferences [r'] = m.noteReferences [r] := by
      unfold Machine.noteReferences
      rw [List.foldl_cons, List.foldl_cons, first.1, first.2.1]
    rw [alike]

/-- A variable of a text may be renamed to any name that is not in the text. -/
theorem proper_of_text {y : String} (identifier : Lexical.Lexeme .identifier y.toList)
    (new : ∀ t ∈ Lexical.tokens source, t.lexeme ≠ y) (named : ρ.new = y)
    (occurs : ρ.Occurs (· ∈ Lexical.tokens source)) :
    Proper ρ ∧ ∀ t ∈ Lexical.tokens source, ρ.Admits t := by
  obtain ⟨x, ⟨mem, name⟩, spelled⟩ := occurs
  have old : ∀ k : Keyword, ρ.old ≠ k.spelling := by
    rw [← spelled]
    exact (Lexical.tokens_spelled source x mem).1 name
  refine ⟨⟨?_, old, ?_⟩, ?_⟩
  · rw [← spelled, named]
    exact new x mem
  · rw [named]
    generalize text : y.toList = word at identifier
    cases identifier with
    | name _ _ other =>
      rw [← text, String.ofList_toList] at other
      exact other
  · intro t there
    refine ⟨named ▸ new t there, fun k keyword => ?_⟩
    rw [(Lexical.tokens_spelled source t there).2 k keyword]
    exact (old k).symm

/-- The distances that are found in an accepted text are those of its references. -/
theorem prepare_found {launches : List Launch} (settled : Settled host s launches)
    (accepted : (s.prepare source).diagnostics = [])
    (hops : ρ.hops = (resolve (s.prepare source).program).distance) :
    Noted (Found ρ (notes (s.prepare source).session)) (resolve (s.prepare source).program) := by
  obtain ⟨quiet, clean⟩ := accepted_iff.mp accepted
  rw [(prepare_accepted accepted).1] at hops ⊢
  refine ⟨clean, fun r mem => ⟨prepare_recorded settled quiet r mem, ?_⟩⟩
  rw [hops]
  exact distance_of_mem (references_distinct s source) mem

/-- A text that is accepted has a machine ready that mirrors itself, also where a variable is
    spelled anew. -/
theorem prepare_mirrors (discreet : Discreet SameButSpelling host)
    (reached : Reached host s texts) (proper : Proper ρ) :
    let session := (s.prepare source).session
    ∃ w, MachineMirrors (respelling proper (notes session)) w Machine.globals session.machine
      session.machine := by
  intro session
  have itself : Similar relines_eq session session :=
    (reached.similar_self discreet fun _ _ => .inl).advance (fun _ _ h => h.1)
      (prepare_advances s source) (prepare_advances s source) (prepare_machine s source)
      (prepare_machine s source)
  obtain ⟨w, mirrors⟩ := itself
  exact ⟨_, mirrors.widen (copying_widens_respelling proper _) fun _ _ _ noted =>
    ⟨noted.1.2, noted.2.2⟩⟩

/-- In a program that is accepted, rename a variable of a block or a function, at its
    declaration and at every reference that is bound to it, to a name that is not in the text.
    The renamed program is accepted and its references are bound as before. Run in the same
    session, it prints the same and ends in the same way. -/
theorem renaming_changes_nothing {x y : String} {p' : List Stmt}
    (discreet : Discreet SameButSpelling host) (reached : Reached host s texts)
    (accepted : (s.prepare source).diagnostics = [])
    (identifier : Lexical.Lexeme .identifier y.toList)
    (new : ∀ t ∈ Lexical.tokens source, t.lexeme ≠ y)
    (renamed : StmtsRenamed ⟨x, y, (resolve (s.prepare source).program).distance⟩
      (s.prepare source).program p') :
    let p := (s.prepare source).program
    let ρ : Renaming := ⟨x, y, (resolve p).distance⟩
    (resolve p').errors = [] ∧
      List.Forall₂ (SameReference ρ) (resolve p).references (resolve p').references ∧
      ∀ fuel, SameRun ρ
        (interpret host fuel p (s.machine.noteReferences (resolve p).references))
        (interpret host fuel p' (s.machine.noteReferences (resolve p').references)) := by
  intro p ρ
  have honest : Honest host := discreet.honest fun v => .inl (sameOutline_refl id v)
  obtain ⟨launches, settled⟩ := reached.settled honest
  obtain ⟨program, _, session⟩ := prepare_accepted accepted
  have read := (complaints_eq_nil_iff.mp (accepted_iff.mp accepted).1).2
  have made : ∀ {T : Token → Prop}, (∀ t ∈ Lexical.tokens source, T t) → Stmt.AllOver T p := by
    intro T all
    show Stmt.AllOver T (s.prepare source).program
    rw [program]
    exact Grammar.readProgram_over read all
  obtain ⟨proper, admits⟩ :=
    proper_of_text identifier new rfl (occurs_of_stmts renamed (made fun _ mem => mem))
  -- the program mirrors itself, and so it does with the variable renamed
  have itself := (accepted_anywhere relines_eq settled settled accepted fun _ _ => rfl).2
  obtain ⟨follows, mirrors⟩ := path_stmts proper renamed .top [] [()] rfl nofun (made admits)
    (prepare_found settled accepted rfl) itself
  have references : List.Forall₂ (SameReference ρ) (resolve p).references
      (resolve p').references := follows.references
  refine ⟨follows.errors, references, fun fuel => ?_⟩
  obtain ⟨w, machines⟩ := prepare_mirrors discreet reached proper
  have looks : ∀ w v v', ValueMirrors (respelling proper (notes (s.prepare source).session))
      w v v' → SameButSpelling v v' := fun w v v' h => .inr ⟨ρ, proper, _, w, h⟩
  have views : Views w Machine.globals [false] := .cons machines.globals .nil
  have agrees : Agrees _ w Machine.globals (interpret host fuel p) (interpret host fuel p') _ :=
    agrees_interpret discreet looks views mirrors
  have ready : (s.prepare source).session.machine =
      s.machine.noteReferences (resolve p).references := by
    show _ = s.machine.noteReferences (resolve (s.prepare source).program).references
    rw [session, program]
  have result := (agrees _ _ machines).sameRun
  rw [ready] at result
  rw [noteReferences_same references]
  exact result

/-- The theorem at a block with a variable that is hidden by another one of its name. -/
theorem renaming_changes_nothing_hidden :
    let host := Host.standard 0
    let s := Session.start host .unlimited
    let source := "\x7bvar a;\x7bprint a;var a;a;\x7d\x7d"
    let a : Token := ⟨.identifier, "a", 1⟩
    let b : Token := ⟨.identifier, "b", 1⟩
    let program (name : Token) : List Stmt :=
      [.block [.varDecl name none,
        .block [.print ⟨.keyword .printWord, "print", 1⟩ (.var 0 name), .varDecl a none,
          .expression (.var 1 a)]]]
    (s.prepare source).program = program a ∧ (s.prepare source).diagnostics = [] ∧
      (resolve (program b)).errors = [] ∧
      ∀ fuel, SameRun ⟨"a", "b", (resolve (program a)).distance⟩
        (interpret host fuel (program a)
          (s.machine.noteReferences (resolve (program a)).references))
        (interpret host fuel (program b)
          (s.machine.noteReferences (resolve (program b)).references)) := by
  intro host s source a b program
  -- all in one, so that the text is cut into tokens only once
  have evaluated : ((Lexical.tokens source).all (·.lexeme != "b"), (s.prepare source).program,
      (s.prepare source).diagnostics) = (true, program a, []) := by cbv
  obtain ⟨others, evaluated⟩ := Prod.mk.inj evaluated
  obtain ⟨read, accepted⟩ := Prod.mk.inj evaluated
  have identifier : Lexical.Lexeme .identifier "b".toList :=
    .name rfl (List.forall_mem_nil _) fun k => by cases k <;> decide
  have new : ∀ t ∈ Lexical.tokens source, t.lexeme ≠ "b" :=
    fun t mem => bne_iff_ne.mp (List.all_eq_true.mp others t mem)
  have renamed : StmtsRenamed ⟨"a", "b", (resolve (s.prepare source).program).distance⟩
      (s.prepare source).program (program b) := by
    rw [read]
    exact .first (.block ⟨a, _, List.mem_cons_self .., rfl⟩)
  have result := renaming_changes_nothing (discreet_standard 0) (.start .unlimited) accepted
    identifier new renamed
  rw [read] at result
  exact ⟨read, accepted, result.1, result.2.2⟩

end

end Lox.Evaluation
