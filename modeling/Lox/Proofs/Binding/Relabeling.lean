import Lox.Proofs.Mirror.Copies

/-! # Copies with nodes of one's choice

  Nodes have no part in what a walk finds, but that they are noted with it. So there is a copy
  of every tree in which the nodes of references are whatever goes with their distances
  (`exists_copy_stmt`), and from any node on there is room in a table for the nodes of such a
  copy (`exists_table`).
-/

namespace Lox.Binding

/-! ### Copies -/

/-- Whether a reference has the node that goes with its distance. -/
def Labelled (label : Option Nat → NodeId) (node : NodeId) (distance : Option Nat) : Prop :=
  node = label distance

theorem recorded_inParams {N : NodeId → Option Nat → Prop} :
    ∀ (params : List Token) (layers : Layers), Recorded N (inParams layers params)
  | [], _ => recorded_none
  | param :: rest, layers => by
    rw [inParams, recorded_append]
    exact ⟨recorded_errorIf, recorded_inParams rest (layers.define param)⟩

section

variable (label : Option Nat → NodeId)

mutual

theorem exists_copy_expr (context : Context) (layers : Layers) : ∀ e : Expr,
    ∃ e' : Expr, e'.bare = e.bare ∧ Recorded (Labelled label) (inExpr context layers e')
  -- a label is given where the tree refers to a variable, and the rest of it is copied
  | .literal value => ⟨.literal value, rfl, recorded_none⟩
  | .grouping inner => by
    obtain ⟨inner', same, recorded⟩ := exists_copy_expr context layers inner
    exact ⟨.grouping inner', by rw [Expr.bare, Expr.bare, same], by rwa [inExpr]⟩
  | .unary operator right => by
    obtain ⟨right', same, recorded⟩ := exists_copy_expr context layers right
    exact ⟨.unary operator right', by rw [Expr.bare, Expr.bare, same], by rwa [inExpr]⟩
  | .binary left operator right => by
    obtain ⟨left', same, recorded⟩ := exists_copy_expr context layers left
    obtain ⟨right', same', recorded'⟩ := exists_copy_expr context layers right
    refine ⟨.binary left' operator right', by rw [Expr.bare, Expr.bare, same, same'], ?_⟩
    rw [inExpr, recorded_append]
    exact ⟨recorded, recorded'⟩
  | .logical left operator right => by
    obtain ⟨left', same, recorded⟩ := exists_copy_expr context layers left
    obtain ⟨right', same', recorded'⟩ := exists_copy_expr context layers right
    refine ⟨.logical left' operator right', by rw [Expr.bare, Expr.bare, same, same'], ?_⟩
    rw [inExpr, recorded_append]
    exact ⟨recorded, recorded'⟩
  | .var _ name => by
    refine ⟨.var (label (layers.hops? name)) name, rfl, ?_⟩
    rw [inExpr, recorded_append, recorded_reference]
    exact ⟨recorded_errorIf, rfl⟩
  | .assign _ name value => by
    obtain ⟨value', same, recorded⟩ := exists_copy_expr context layers value
    refine ⟨.assign (label (layers.hops? name)) name value', by rw [Expr.bare, Expr.bare, same], ?_⟩
    rw [inExpr, recorded_append, recorded_reference]
    exact ⟨recorded, rfl⟩
  | .call callee paren arguments => by
    obtain ⟨callee', same, recorded⟩ := exists_copy_expr context layers callee
    obtain ⟨arguments', same', recorded'⟩ := exists_copy_arguments context layers arguments
    refine ⟨.call callee' paren arguments', by rw [Expr.bare, Expr.bare, same, same'], ?_⟩
    rw [inExpr, recorded_append]
    exact ⟨recorded, recorded'⟩
  | .get object name => by
    obtain ⟨object', same, recorded⟩ := exists_copy_expr context layers object
    exact ⟨.get object' name, by rw [Expr.bare, Expr.bare, same], by rwa [inExpr]⟩
  | .set object name value => by
    obtain ⟨object', same, recorded⟩ := exists_copy_expr context layers object
    obtain ⟨value', same', recorded'⟩ := exists_copy_expr context layers value
    refine ⟨.set object' name value', by rw [Expr.bare, Expr.bare, same, same'], ?_⟩
    rw [inExpr, recorded_append]
    exact ⟨recorded', recorded⟩
  | .thisRef _ keyword => by
    refine ⟨.thisRef (label (layers.hops? keyword)) keyword, rfl, ?_⟩
    rw [inExpr]
    split
    · exact recorded_errorIf
    · exact recorded_reference.mpr rfl
  | .superRef _ keyword method => by
    refine ⟨.superRef (label (layers.hops? keyword)) keyword method, rfl, ?_⟩
    rw [inExpr, superErrors, recorded_append, recorded_append, recorded_reference]
    exact ⟨⟨recorded_errorIf, recorded_errorIf⟩, rfl⟩

theorem exists_copy_arguments (context : Context) (layers : Layers) : ∀ es : List Expr,
    ∃ es' : List Expr, Expr.bareAll es' = Expr.bareAll es ∧
      Recorded (Labelled label) (inArguments context layers es')
  | [] => ⟨[], rfl, recorded_none⟩
  | e :: rest => by
    obtain ⟨e', same, recorded⟩ := exists_copy_expr context layers e
    obtain ⟨rest', same', recorded'⟩ := exists_copy_arguments context layers rest
    refine ⟨e' :: rest', by rw [Expr.bareAll, Expr.bareAll, same, same'], ?_⟩
    rw [inArguments, recorded_append]
    exact ⟨recorded, recorded'⟩

end

theorem exists_copy_option (context : Context) (layers : Layers) : ∀ o : Option Expr,
    ∃ o' : Option Expr, o'.map Expr.bare = o.map Expr.bare ∧
      Recorded (Labelled label) (inOption context layers o')
  | none => ⟨none, rfl, recorded_none⟩
  | some e => by
    obtain ⟨e', same, recorded⟩ := exists_copy_expr label context layers e
    exact ⟨some e', congrArg some same, recorded⟩

theorem exists_copy_superclass (context : Context) (layers : Layers) (name : Token) :
    ∀ o : Option Expr, ∃ o' : Option Expr, o'.map Expr.bare = o.map Expr.bare ∧
      Recorded (Labelled label) (inSuperclass context layers name o')
  | none => ⟨none, rfl, recorded_none⟩
  | some e => by
    obtain ⟨e', same, recorded⟩ :=
      exists_copy_expr label { context with classContext := .derived } layers e
    refine ⟨some e', congrArg some same, ?_⟩
    rw [inSuperclass, recorded_append]
    refine ⟨?_, recorded⟩
    unfold selfInheritance
    split
    · exact recorded_errorIf
    · exact recorded_none

mutual

/-- There is a copy of every statement in which each reference has a node that goes with its
    distance. -/
theorem exists_copy_stmt (context : Context) (layers : Layers) : ∀ s : Stmt,
    ∃ s' : Stmt, s'.bare = s.bare ∧ Recorded (Labelled label) (inStmt context layers s')
  | .expression value => by
    obtain ⟨value', same, recorded⟩ := exists_copy_expr label context layers value
    exact ⟨.expression value', by rw [Stmt.bare, Stmt.bare, same], by rwa [inStmt]⟩
  | .print keyword value => by
    obtain ⟨value', same, recorded⟩ := exists_copy_expr label context layers value
    exact ⟨.print keyword value', by rw [Stmt.bare, Stmt.bare, same], by rwa [inStmt]⟩
  | .varDecl name initializer => by
    obtain ⟨initializer', same, recorded⟩ :=
      exists_copy_option label context (layers.declare name) initializer
    refine ⟨.varDecl name initializer', by rw [Stmt.bare, Stmt.bare, same], ?_⟩
    rw [inStmt, recorded_append]
    exact ⟨recorded_errorIf, recorded⟩
  | .block body => by
    obtain ⟨body', same, recorded⟩ := exists_copy_stmts context (.empty :: layers) body
    exact ⟨.block body', by rw [Stmt.bare, Stmt.bare, same], by rwa [inStmt]⟩
  | .ifElse condition thenBranch none => by
    obtain ⟨condition', same, recorded⟩ := exists_copy_expr label context layers condition
    obtain ⟨then', same', recorded'⟩ := exists_copy_stmt context layers thenBranch
    refine ⟨.ifElse condition' then' none, by rw [Stmt.bare, Stmt.bare, same, same'], ?_⟩
    rw [inStmt, recorded_append]
    exact ⟨recorded, recorded'⟩
  | .ifElse condition thenBranch (some elseBranch) => by
    obtain ⟨condition', same₁, recorded₁⟩ := exists_copy_expr label context layers condition
    obtain ⟨then', same₂, recorded₂⟩ := exists_copy_stmt context layers thenBranch
    obtain ⟨else', same₃, recorded₃⟩ :=
      exists_copy_stmt context (layers.after thenBranch) elseBranch
    refine ⟨.ifElse condition' then' (some else'), ?_, ?_⟩
    · rw [Stmt.bare, Stmt.bare, same₁, same₂, Stmt.bareElse, Stmt.bareElse, same₃]
    -- the copy of the first branch declares what the branch declares
    · rw [inStmt, recorded_append, recorded_append, after_of_bare same₂]
      exact ⟨⟨recorded₁, recorded₂⟩, recorded₃⟩
  | .whileLoop condition body => by
    obtain ⟨condition', same, recorded⟩ := exists_copy_expr label context layers condition
    obtain ⟨body', same', recorded'⟩ := exists_copy_stmt context layers body
    refine ⟨.whileLoop condition' body', by rw [Stmt.bare, Stmt.bare, same, same'], ?_⟩
    rw [inStmt, recorded_append]
    exact ⟨recorded, recorded'⟩
  | .funDecl ⟨name, params, body⟩ => by
    obtain ⟨body', same, recorded⟩ :=
      exists_copy_stmts { context with routine := .function }
        (bodyLayers (layers.define name) params) body
    refine ⟨.funDecl ⟨name, params, body'⟩, ?_, ?_⟩
    · rw [Stmt.bare, Stmt.bare, FunctionDecl.bare, FunctionDecl.bare, same]
    · rw [inStmt, inFunction, recorded_append, recorded_append]
      exact ⟨recorded_errorIf, recorded_inParams _ _, recorded⟩
  | .ret keyword value => by
    obtain ⟨value', same, recorded⟩ := exists_copy_option label context layers value
    refine ⟨.ret keyword value', by rw [Stmt.bare, Stmt.bare, same], ?_⟩
    rw [inStmt, returnErrors, recorded_append, recorded_append]
    exact ⟨⟨recorded_errorIf, recorded_errorIf⟩, recorded⟩
  | .classDecl name superclass methods => by
    obtain ⟨superclass', same, recorded⟩ :=
      exists_copy_superclass label context (layers.define name) name superclass
    obtain ⟨methods', same', recorded'⟩ :=
      exists_copy_methods (classContext context superclass.isSome)
        ((layers.define name).ofClass superclass.isSome) methods
    have inherits : superclass'.isSome = superclass.isSome := by
      simpa using congrArg Option.isSome same
    refine ⟨.classDecl name superclass' methods', by rw [Stmt.bare, Stmt.bare, same, same'], ?_⟩
    rw [inStmt, inherits, recorded_append, recorded_append]
    exact ⟨⟨recorded_errorIf, recorded⟩, recorded'⟩

theorem exists_copy_stmts (context : Context) (layers : Layers) : ∀ ss : List Stmt,
    ∃ ss' : List Stmt, Stmt.bareAll ss' = Stmt.bareAll ss ∧
      Recorded (Labelled label) (inStmts context layers ss')
  | [] => ⟨[], rfl, recorded_none⟩
  | s :: rest => by
    obtain ⟨s', same, recorded⟩ := exists_copy_stmt context layers s
    obtain ⟨rest', same', recorded'⟩ := exists_copy_stmts context (layers.after s) rest
    refine ⟨s' :: rest', by rw [Stmt.bareAll, Stmt.bareAll, same, same'], ?_⟩
    rw [inStmts, recorded_append, after_of_bare same]
    exact ⟨recorded, recorded'⟩

theorem exists_copy_methods (context : Context) (layers : Layers) : ∀ fs : List FunctionDecl,
    ∃ fs' : List FunctionDecl, FunctionDecl.bareAll fs' = FunctionDecl.bareAll fs ∧
      Recorded (Labelled label) (inMethods context layers fs')
  | [] => ⟨[], rfl, recorded_none⟩
  | ⟨name, params, body⟩ :: rest => by
    obtain ⟨body', same, recorded⟩ :=
      exists_copy_stmts { context with routine := methodContext ⟨name, params, body⟩ }
        (bodyLayers layers params) body
    obtain ⟨rest', same', recorded'⟩ := exists_copy_methods context layers rest
    refine ⟨⟨name, params, body'⟩ :: rest', ?_, ?_⟩
    · rw [FunctionDecl.bareAll, FunctionDecl.bareAll, FunctionDecl.bare, FunctionDecl.bare, same,
        same']
    · rw [inMethods, inFunction, recorded_append, recorded_append]
      exact ⟨⟨recorded_inParams _ _, recorded⟩, recorded'⟩

end

end

/-! ### Tables -/

/-- A table may be continued from some node on so that the nodes there go with distances, up to
    a bound. -/
theorem exists_table (hops : Hops) (base : Nat) : ∀ bound : Nat,
    ∃ hops' : Hops, (∀ node < base, hops.get? node = hops'.get? node) ∧
      hops'.get? base = none ∧
      ∀ distance < bound, hops'.get? (base + distance + 1) = some distance
  | 0 => by
    refine ⟨hops.filter fun node _ => decide (node < base), ?_, ?_, nofun⟩
    · intro node below
      rw [Std.TreeMap.get?_eq_getElem?, Std.TreeMap.get?_eq_getElem?,
        Std.TreeMap.getElem?_filter', decide_eq_true below]
      cases hops[node]? <;> rfl
    · simp
  | bound + 1 => by
    obtain ⟨hops', old, first, listed⟩ := exists_table hops base bound
    have other : ∀ node : Nat, node ≠ base + bound + 1 →
        (hops'.insert (base + bound + 1) bound).get? node = hops'.get? node := by
      intro node apart
      simp [Std.TreeMap.getElem?_insert, apart.symm]
    refine ⟨hops'.insert (base + bound + 1) bound, ?_, ?_, ?_⟩
    · intro node below
      rw [other node (by omega)]
      exact old node below
    · rw [other base (by omega)]
      exact first
    · intro distance below
      by_cases last : distance = bound
      · simp [last]
      · rw [other _ (by omega)]
        exact listed distance (by omega)

end Lox.Binding
