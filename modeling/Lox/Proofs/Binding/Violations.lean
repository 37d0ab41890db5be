import Lox.Proofs.Grammar.Trees

/-! # What the walk finds

  The walk over a program passes down layers of names and the kinds of the function and
  class around. Both are determined by the path of the place it is at, and so it finds at
  every site what the rules say of it (`inStmts_eq`). For programs that were read this is all
  it reports (`resolve_reports_violations`).
-/

namespace Lox.Binding

/-! ### Findings of sites -/

/-- What the rules and distances say of some sites. -/
def found (sites : List Site) : Findings :=
  ⟨sites.filterMap violation, sites.filterMap Site.reference?⟩

@[simp] theorem found_append (a b : List Site) : found (a ++ b) = found a ++ found b := by
  show Findings.mk _ _ = Findings.append _ _
  rw [Findings.append, found, List.filterMap_append, List.filterMap_append]
  rfl

theorem found_cons (site : Site) (sites : List Site) :
    found (site :: sites) = found [site] ++ found sites :=
  found_append [site] sites

theorem append_assoc (a b c : Findings) : a ++ b ++ c = a ++ (b ++ c) := by
  show Findings.append (Findings.append a b) c = Findings.append a (Findings.append b c)
  simp [Findings.append]

/-- A site at which only an error can be found. -/
theorem found_singleton {site : Site} (h : site.reference? = none) :
    found [site] = ⟨(violation site).toList, []⟩ := by
  unfold found
  rw [List.filterMap_cons_none h]
  cases hv : violation site <;> simp [hv]

/-! ### Expressions -/

/-- The class around a place, as the walk keeps it. -/
def classContextOf : Option Bool → ClassContext
  | none => .outside
  | some false => .plain
  | some true => .derived

/-- The function around a place, as the walk keeps it. -/
def routineContextOf : Option (Bool × FunctionDecl) → RoutineContext
  | none => .outside
  | some (false, _) => .function
  | some (true, f) => methodContext f

/-- The layers and the class around an expression are those of its path. -/
structure ExprView (context : Context) (layers : Layers) (path : Path)
    (initialized : Option Token) : Prop where
  hops : ∀ name, layers.hops? name = path.hops? name
  pending : ∀ name, layers.initializes name =
    (path.isLocal && initialized.any (·.lexeme == name.lexeme))
  inherits : context.classContext = classContextOf path.inherits?

section expressions

variable {context : Context} {layers : Layers} {path : Path} {initialized : Option Token}

/-- Reading a variable does not depend on the class around it. -/
theorem inExpr_var_eq (hops : ∀ name, layers.hops? name = path.hops? name)
    (pending : ∀ name, layers.initializes name =
      (path.isLocal && initialized.any (·.lexeme == name.lexeme)))
    (node : NodeId) (name : Token) :
    inExpr context layers (.var node name) =
      found (exprSites path initialized (.var node name)) := by
  rw [inExpr, pending name]
  show _ = found [.occurrence path initialized (.read node name)]
  unfold found Findings.reference Findings.errorIf
  rw [hops name]
  by_cases wrong : (path.isLocal && initialized.any (·.lexeme == name.lexeme)) = true
  · simp only [List.filterMap_cons, violation, Site.reference?, wrong, if_true]
    rfl
  · simp only [List.filterMap_cons, violation, Site.reference?, wrong]
    rfl

theorem inExpr_this_eq (view : ExprView context layers path initialized) (node : NodeId)
    (keyword : Token) :
    inExpr context layers (.thisRef node keyword) =
      found (exprSites path initialized (.thisRef node keyword)) := by
  rw [inExpr, view.inherits]
  show _ = found [.occurrence path initialized (.self node keyword)]
  unfold found
  cases hi : path.inherits? with
  | none =>
    simp only [List.filterMap_cons, violation, Site.reference?, hi, classContextOf]
    rfl
  | some inherits =>
    have inside : classContextOf (some inherits) ≠ .outside := by cases inherits <;> decide
    simp only [List.filterMap_cons, violation, Site.reference?, hi, inside, if_false,
      Findings.reference, view.hops keyword]
    rfl

theorem inExpr_super_eq (view : ExprView context layers path initialized) (node : NodeId)
    (keyword method : Token) :
    inExpr context layers (.superRef node keyword method) =
      found (exprSites path initialized (.superRef node keyword method)) := by
  rw [inExpr, view.inherits, Findings.reference, view.hops keyword]
  show _ = found [.occurrence path initialized (.parent node keyword)]
  unfold found superErrors
  cases hi : path.inherits? with
  | none =>
    simp only [List.filterMap_cons, violation, Site.reference?, hi, classContextOf]
    rfl
  | some inherits =>
    cases inherits <;>
      simp only [List.filterMap_cons, violation, Site.reference?, hi, classContextOf] <;> rfl

mutual

/-- In an expression the walk finds what the rules say of its sites. -/
theorem inExpr_eq (view : ExprView context layers path initialized) : ∀ e : Expr,
    inExpr context layers e = found (exprSites path initialized e)
  | .literal _ => by
    rw [inExpr, exprSites, occurrences]
    rfl
  | .grouping inner => by
    have ih := inExpr_eq view inner
    rwa [exprSites] at ih
  | .unary _ right => inExpr_eq view right
  | .binary left _ right => by
    have ihl := inExpr_eq view left
    have ihr := inExpr_eq view right
    rw [inExpr, ihl, ihr]
    simp only [exprSites, occurrences, List.map_append, found_append]
  | .logical left _ right => by
    have ihl := inExpr_eq view left
    have ihr := inExpr_eq view right
    rw [inExpr, ihl, ihr]
    simp only [exprSites, occurrences, List.map_append, found_append]
  | .var node name => inExpr_var_eq view.hops view.pending node name
  | .assign node name value => by
    have ih := inExpr_eq view value
    rw [inExpr, ih, Findings.reference, view.hops name]
    simp only [exprSites, occurrences, List.map_append, found_append]
    rfl
  | .call callee _ arguments => by
    have ih := inExpr_eq view callee
    have ihs := inArguments_eq view arguments
    rw [inExpr, ih, ihs]
    simp only [exprSites, occurrences, List.map_append, found_append]
  | .get object _ => inExpr_eq view object
  | .set object _ value => by
    -- the value comes before the object, both in the walk and among the sites
    have ihv := inExpr_eq view value
    have iho := inExpr_eq view object
    rw [inExpr, ihv, iho]
    simp only [exprSites, occurrences, List.map_append, found_append]
  | .thisRef node keyword => inExpr_this_eq view node keyword
  | .superRef node keyword method => inExpr_super_eq view node keyword method

/-- The same for arguments. -/
theorem inArguments_eq (view : ExprView context layers path initialized) :
    ∀ es : List Expr, inArguments context layers es =
      found ((occurrencesAll es).map (.occurrence path initialized))
  | [] => rfl
  | e :: rest => by
    have ih := inExpr_eq view e
    have ihs := inArguments_eq view rest
    rw [inArguments, ih, ihs]
    simp only [exprSites, occurrencesAll, List.map_append, found_append]

end

theorem inOption_eq (view : ExprView context layers path initialized) (o : Option Expr) :
    inOption context layers o = found (optionSites path initialized o) := by
  cases o with
  | none => rfl
  | some e => exact inExpr_eq view e

end expressions

/-! ### Layers and scopes -/

/-- A layer has exactly the names of a scope, and all of them may be read. -/
def Holds (layer : Layer) (scope : Construct × List String) : Prop :=
  ∀ x, layer.get? x = if x ∈ scope.2 then some .defined else none

theorem hops?_eq {layers : Layers} {scopes : List (Construct × List String)}
    (h : List.Forall₂ (fun layer scope => ∀ x, layer.contains x = scope.2.contains x)
      layers scopes) (name : Token) :
    layers.hops? name = scopes.findIdx? (·.2.contains name.lexeme) := by
  unfold Layers.hops?
  induction h with
  | nil => rfl
  | cons same _ ih => rw [List.findIdx?_cons, List.findIdx?_cons, same, ih]

theorem Holds.contains {layer : Layer} {scope : Construct × List String}
    (h : Holds layer scope) (x : String) : layer.contains x = scope.2.contains x := by
  unfold Bindings.contains
  rw [h x]
  by_cases mem : x ∈ scope.2
  · simp [mem]
  · simp [mem]

theorem Holds.define {layer : Layer} {construct : Construct} {names : List String}
    (h : Holds layer (construct, names)) (x : String) :
    Holds (layer.set x .defined) (construct, names ++ [x]) := by
  intro y
  by_cases same : y = x
  · subst same
    rw [Bindings.get?_set_self]
    simp
  · rw [Bindings.get?_set_of_ne layer _ same, h y]
    simp [same]

/-- In layers that hold their scopes no variable waits for its initializer. -/
theorem initializes_eq_false {layers : Layers} {scopes : List (Construct × List String)}
    (h : List.Forall₂ Holds layers scopes) (name : Token) :
    layers.initializes name = false := by
  cases h with
  | nil => rfl
  | @cons layer scope _ _ holds _ =>
    show (layer.get? name.lexeme == some .declared) = false
    rw [holds name.lexeme]
    by_cases mem : name.lexeme ∈ scope.2
    · rw [if_pos mem]
      rfl
    · rw [if_neg mem]
      rfl

/-! ### The statements of a body -/

/-- The layers and the class around a function or class body are those of its path. -/
structure Outer (context : Context) (layers : Layers) (outer : Path) : Prop where
  layers : List.Forall₂ Holds layers outer.scopes
  inherits : context.classContext = classContextOf outer.inherits?

/-- Between two statements of a body, the layers hold what the statements before have
    declared. -/
structure View (context : Context) (layers : Layers) (body : Body) (before : List Stmt)
    (outer : Path) : Prop where
  layers : List.Forall₂ Holds layers ((body.scope? before).toList ++ outer.scopes)
  inherits : context.classContext = classContextOf outer.inherits?
  routine : context.routine = routineContextOf (body.routine?.or outer.routine?)
  outermost : body.scope? [] = none → outer = []

/-- What is declared next joins the innermost layer, and the names of the scope. -/
theorem View.define {context : Context} {layers : Layers} {body : Body} {before : List Stmt}
    {outer : Path} (view : View context layers body before outer) {s : Stmt} {name : Token}
    (h : declared? s = some name) :
    List.Forall₂ Holds (layers.define name)
      ((body.scope? (before ++ [s])).toList ++ outer.scopes) := by
  have held := view.layers
  cases body with
  | program =>
    -- global names are in no layer
    have top := view.outermost rfl
    subst top
    cases held
    exact .nil
  | block ss =>
    cases held with
    | cons holds rest =>
      have more := holds.define name.lexeme
      rw [← declaredNames_append_some h] at more
      exact .cons more rest
  | routine isMethod f =>
    cases held with
    | cons holds rest =>
      have more := holds.define name.lexeme
      rw [List.append_assoc, ← declaredNames_append_some h] at more
      exact .cons more rest

theorem after_eq (layers : Layers) : ∀ {s : Stmt}, WellFormed s →
    layers.after s = (declared? s).elim layers layers.define
  | .varDecl _ _, _ => rfl
  | .funDecl _, _ => rfl
  | .classDecl _ _ _, _ => rfl
  | .ifElse _ thenBranch none, formed => by
    have ih := after_eq layers formed.2
    rw [formed.1] at ih
    exact ih
  | .ifElse _ thenBranch (some elseBranch), formed => by
    have iht := after_eq layers formed.1.2
    have ihe := after_eq layers formed.2.2
    rw [formed.1.1] at iht
    rw [formed.2.1] at ihe
    show (layers.after thenBranch).after elseBranch = layers
    rw [iht]
    exact ihe
  | .whileLoop _ body, formed => by
    have ih := after_eq layers formed.2
    rw [formed.1] at ih
    exact ih
  | .expression _, _ => rfl
  | .print _ _, _ => rfl
  | .block _, _ => rfl
  | .ret _ _, _ => rfl

theorem View.after {context : Context} {layers : Layers} {body : Body} {before : List Stmt}
    {outer : Path} (view : View context layers body before outer) {s : Stmt}
    (formed : WellFormed s) : View context (layers.after s) body (before ++ [s]) outer := by
  refine ⟨?_, view.inherits, view.routine, view.outermost⟩
  rw [after_eq layers formed]
  cases h : declared? s with
  | none =>
    rw [scope?_append_none body h]
    exact view.layers
  | some name => exact view.define h

section views

variable {context : Context} {layers : Layers} {body : Body} {before : List Stmt}
  {outer : Path} {current : Stmt}

theorem routine?_within :
    Path.routine? (.within body before current :: outer) =
      body.routine?.or outer.routine? := by
  unfold Path.routine?
  rw [List.findSome?_cons, Step.routine?]
  cases body.routine? <;> rfl

/-- What an expression sees, outside the initializer of a variable. -/
theorem exprView_of_scopes {path : Path} (held : List.Forall₂ Holds layers path.scopes)
    (inherits : context.classContext = classContextOf path.inherits?) :
    ExprView context layers path none := by
  refine ⟨?_, ?_, inherits⟩
  · intro name
    exact hops?_eq (held.imp fun layer scope holds => holds.contains) name
  · intro name
    rw [initializes_eq_false held name]
    exact (Bool.and_false _).symm

theorem View.expr (view : View context layers body before outer)
    (h : declared? current = none) :
    ExprView context layers (.within body before current :: outer) none := by
  have held : List.Forall₂ Holds layers
      (Path.scopes (.within body before current :: outer)) := by
    rw [scopes_within, scope?_append_none body h]
    exact view.layers
  exact exprView_of_scopes held view.inherits

/-- What the initializer of a variable sees: the variable is known and waits for it. -/
theorem View.initializer (view : View context layers body before outer) {name : Token}
    {value : Option Expr} (h : current = .varDecl name value) :
    ExprView context (layers.declare name) (.within body before current :: outer)
      (some name) := by
  have known : declared? current = some name := by rw [h]; rfl
  have defined := view.define known
  rw [← scopes_within] at defined
  have held := view.layers
  cases hscope : body.scope? before with
  | none =>
    -- top-level code has no layer
    have program : body = .program := by cases body <;> first | rfl | cases hscope
    subst program
    have top := view.outermost rfl
    subst top
    cases held
    exact ⟨fun _ => rfl, fun _ => rfl, view.inherits⟩
  | some scope =>
    have inScope : Path.isLocal (.within body before current :: outer) = true := by
      cases body <;> first | rfl | cases hscope
    rw [hscope] at held
    cases held with
    | @cons layer _ rest _ holds tail =>
      refine ⟨?_, ?_, view.inherits⟩
      · intro other
        rw [← (exprView_of_scopes defined view.inherits).hops other]
        -- declared or defined, the name is there
        show Layers.hops? (layer.set name.lexeme .declared :: rest) other =
          Layers.hops? (layer.set name.lexeme .defined :: rest) other
        unfold Layers.hops?
        rw [List.findIdx?_cons, List.findIdx?_cons]
        have same : (layer.set name.lexeme .declared).contains other.lexeme =
            (layer.set name.lexeme .defined).contains other.lexeme := by
          unfold Bindings.contains
          by_cases eq : other.lexeme = name.lexeme
          · rw [eq, Bindings.get?_set_self, Bindings.get?_set_self]
            rfl
          · rw [Bindings.get?_set_of_ne _ _ eq, Bindings.get?_set_of_ne _ _ eq]
        rw [same]
      · intro other
        rw [inScope]
        show ((layer.set name.lexeme .declared).get? other.lexeme == some .declared) =
          (name.lexeme == other.lexeme)
        by_cases eq : other.lexeme = name.lexeme
        · rw [eq, Bindings.get?_set_self]
          simp
        · rw [Bindings.get?_set_of_ne _ _ eq, holds other.lexeme]
          have differs : (name.lexeme == other.lexeme) = false := by
            rw [beq_eq_false_iff_ne]
            exact fun h => eq h.symm
          rw [differs]
          split <;> rfl

/-- The path of a declaration, around what stands in it. -/
theorem View.declared (view : View context layers body before outer) {name : Token}
    (h : declared? current = some name) :
    Outer context (layers.define name) (.within body before current :: outer) := by
  refine ⟨?_, view.inherits⟩
  rw [scopes_within]
  exact view.define h

theorem redeclaration_eq (view : View context layers body before outer) (name : Token) :
    redeclaration layers name =
      found [.declaration (.within body before current :: outer) name] := by
  -- the layer in front has the names declared before in the scope; the global one has none
  have known : layers.redeclares name =
      (Path.namesBefore (.within body before current :: outer)).contains name.lexeme := by
    have held := view.layers
    cases hscope : body.scope? before with
    | none =>
      have program : body = .program := by cases body <;> first | rfl | cases hscope
      subst program
      have top := view.outermost rfl
      subst top
      cases held
      rfl
    | some scope =>
      rw [hscope] at held
      cases held with
      | cons holds _ =>
        have names : Path.namesBefore (.within body before current :: outer) = scope.2 := by
          show (body.scope? before).elim [] (·.2) = scope.2
          rw [hscope]
          rfl
        rw [names]
        exact holds.contains name.lexeme
  rw [found_singleton rfl, redeclaration, Findings.errorIf, known, violation]
  split <;> rfl

/-- The layer of the parameters, while they are declared one after another. -/
theorem inParams_eq (layers : Layers) {construct : Construct} {layer : Layer} (earlier : List Token)
    (h : Holds layer (construct, earlier.map (·.lexeme))) (params : List Token) :
    inParams (layer :: layers) params = found (parameterSites earlier params) ∧
      ∃ layer', params.foldl Layers.define (layer :: layers) = layer' :: layers ∧
        Holds layer' (construct, (earlier ++ params).map (·.lexeme)) := by
  induction params generalizing layer earlier with
  | nil =>
    rw [List.append_nil]
    exact ⟨rfl, layer, rfl, h⟩
  | cons param rest ih =>
    have more := h.define param.lexeme
    rw [← List.map_singleton (f := fun t : Token => t.lexeme), ← List.map_append] at more
    obtain ⟨later, layer', folded, holds⟩ := ih (earlier ++ [param]) more
    have repeated : Layers.redeclares (layer :: layers) param =
        (earlier.map (·.lexeme)).contains param.lexeme := h.contains param.lexeme
    constructor
    · rw [inParams, parameterSites, found_cons, found_singleton rfl, redeclaration,
        Findings.errorIf, repeated, violation]
      show _ ++ inParams (layer.set param.lexeme .defined :: layers) rest = _
      rw [later]
      split <;> rfl
    · refine ⟨layer', folded, ?_⟩
      rwa [List.append_assoc] at holds

theorem returnErrors_eq (view : View context layers body before outer) (keyword : Token)
    (hasValue : Bool) :
    returnErrors context.routine keyword hasValue =
      found [.ret (.within body before current :: outer) keyword hasValue] := by
  rw [found_singleton rfl, view.routine, violation, routine?_within]
  cases body.routine?.or outer.routine? with
  | none => cases hasValue <;> rfl
  | some r =>
    obtain ⟨isMethod, f⟩ := r
    unfold routineContextOf methodContext
    cases isMethod <;> cases hasValue <;> cases h : f.isInitializer <;> simp [h] <;> rfl

theorem inSuperclass_eq (view : View context layers body before outer) {name : Token}
    (h : declared? current = some name) {superclass : Option Expr}
    (named : NamesSuperclass superclass) :
    inSuperclass context (layers.define name) name superclass =
      found (superclassSites (.within body before current :: outer) name superclass) := by
  cases superclass with
  | none => rfl
  | some e =>
    obtain ⟨node, parent, rfl⟩ := named e rfl
    have held := (view.declared h).layers
    have seen := exprView_of_scopes held view.inherits
    rw [inSuperclass, inExpr_var_eq seen.hops seen.pending, superclassSites, found_cons,
      found_singleton rfl, selfInheritance, Findings.errorIf, violation]
    split <;> rfl

end views

/-! ### The whole walk -/

/-- The body of a function or method, after its parameters. -/
theorem Outer.body {context : Context} {layers : Layers} {outer : Path}
    (view : Outer context layers outer) (isMethod : Bool) (name : Token) (params : List Token)
    (stmts : List Stmt) (kind : RoutineContext)
    (hkind : kind = routineContextOf (some (isMethod, ⟨name, params, stmts⟩))) :
    inParams (.empty :: layers) params = found (parameterSites [] params) ∧
      View { context with routine := kind } (bodyLayers layers params)
        (.routine isMethod ⟨name, params, stmts⟩) [] outer := by
  have empty : Holds .empty
      (.routine ⟨name, params, stmts⟩, List.map (fun t : Token => t.lexeme) []) :=
    fun x => rfl
  obtain ⟨sites, layer, folded, holds⟩ := inParams_eq layers [] empty params
  refine ⟨sites, ?_, view.inherits, hkind, fun no => nomatch no⟩
  unfold bodyLayers
  rw [folded]
  have names : params.map (fun t : Token => t.lexeme) ++ declaredNames [] =
      ([] ++ params).map (fun t : Token => t.lexeme) := List.append_nil _
  show List.Forall₂ Holds (layer :: layers) ((_, _ ++ declaredNames []) :: outer.scopes)
  rw [names]
  exact .cons holds view.layers

/-- The methods of a class see `this`, and `super` around it if there is a superclass. -/
theorem Outer.methods {context : Context} {layers : Layers} {path : Path}
    (view : Outer context layers path) (name : Token) (superclass : Option Expr)
    (methods : List FunctionDecl) (method : FunctionDecl) :
    Outer (classContext context superclass.isSome) (layers.ofClass superclass.isSome)
      (.inClass name superclass methods method :: path) := by
  have single : ∀ (construct : Construct) (x : String),
      Holds (Bindings.single x .defined) (construct, [x]) := by
    intro construct x y
    by_cases same : y = x
    · rw [same]
      simp [Bindings.single]
    · unfold Bindings.single
      rw [Bindings.get?_set_of_ne _ _ same]
      simp [same]
  constructor
  · unfold Path.scopes
    rw [List.flatMap_cons]
    cases superclass with
    | none => exact .cons (single _ _) view.layers
    | some e => exact .cons (single _ _) (.cons (single _ _) view.layers)
  · cases superclass <;> rfl

mutual

/-- In a statement the walk finds what the rules say of its sites. A statement that is not
    itself one of its body, but a branch or loop body in one, declares nothing. -/
theorem inStmt_eq {context : Context} {layers : Layers} {body : Body} {before : List Stmt}
    {outer : Path} (view : View context layers body before outer) (current : Stmt) :
    ∀ s : Stmt, WellFormed s → declared? current = declared? s →
      (declared? s ≠ none → current = s) →
      inStmt context layers s = found (stmtSites (.within body before current :: outer) s)
  | .expression value, _, nothing, _ => by
    rw [inStmt, stmtSites]
    exact inExpr_eq (view.expr nothing) value
  | .print _ value, _, nothing, _ => by
    rw [inStmt, stmtSites]
    exact inExpr_eq (view.expr nothing) value
  | .varDecl name initializer, _, _, itself => by
    have eq := itself (fun no => nomatch no)
    rw [inStmt, stmtSites, found_cons, redeclaration_eq view,
      inOption_eq (view.initializer eq) initializer]
  | .block stmts, formed, nothing, _ => by
    have inner : View context (.empty :: layers) (.block stmts) []
        (.within body before current :: outer) := by
      have same : body.scope? (before ++ [current]) = body.scope? before :=
        scope?_append_none body nothing
      refine ⟨?_, view.inherits, ?_, fun no => nomatch no⟩
      · rw [scopes_within, same]
        exact .cons (fun x => rfl) view.layers
      · rw [routine?_within]
        exact view.routine
    have ih := inStmts_eq inner stmts formed
    rw [inStmt, stmtSites]
    exact ih
  | .ifElse condition thenBranch none, formed, nothing, _ => by
    have iht := inStmt_eq view current thenBranch formed.2
      (nothing.trans formed.1.symm) (fun no => absurd formed.1 no)
    rw [inStmt, stmtSites, found_append, inExpr_eq (view.expr nothing), iht]
  | .ifElse condition thenBranch (some elseBranch), formed, nothing, _ => by
    have iht := inStmt_eq view current thenBranch formed.1.2
      (nothing.trans formed.1.1.symm) (fun no => absurd formed.1.1 no)
    have ihe := inStmt_eq view current elseBranch formed.2.2
      (nothing.trans formed.2.1.symm) (fun no => absurd formed.2.1 no)
    -- a branch declares nothing, so that the layers are the same in the other one
    have still : layers.after thenBranch = layers := by
      rw [after_eq layers formed.1.2, formed.1.1]
      rfl
    rw [inStmt, stmtSites, found_append, found_append, inExpr_eq (view.expr nothing), iht, still,
      ihe]
  | .whileLoop condition stmt, formed, nothing, _ => by
    have ih := inStmt_eq view current stmt formed.2
      (nothing.trans formed.1.symm) (fun no => absurd formed.1 no)
    rw [inStmt, stmtSites, found_append, inExpr_eq (view.expr nothing), ih]
  | .funDecl f, formed, known, _ => by
    have ih := inFunction_eq (view.declared known) false f formed
    rw [inStmt, stmtSites, found_cons, redeclaration_eq view]
    exact congrArg _ ih
  | .ret keyword value, _, nothing, _ => by
    rw [inStmt, stmtSites, found_cons, returnErrors_eq view, inOption_eq (view.expr nothing)]
  | .classDecl name superclass methods, formed, known, _ => by
    -- the class knows its own name, in the superclass as in the methods
    have ih := inMethods_eq ((view.declared known).methods name superclass methods) methods
      formed.2
    have parent := inSuperclass_eq view known formed.1
    rw [inStmt, stmtSites, found_append, found_cons, redeclaration_eq view]
    show _ ++ inSuperclass context (layers.define name) name superclass ++ inMethods _ _ _ = _
    rw [parent, ih]

/-- The same for statements one after another. -/
theorem inStmts_eq {context : Context} {layers : Layers} {body : Body} {before : List Stmt}
    {outer : Path} (view : View context layers body before outer) :
    ∀ ss : List Stmt, AllWellFormed ss →
      inStmts context layers ss = found (bodySites outer body before ss)
  | [], _ => rfl
  | s :: rest, formed => by
    have ih := inStmt_eq view s s formed.1 rfl (fun _ => rfl)
    have ihs := inStmts_eq (view.after formed.1) rest formed.2
    rw [inStmts, bodySites, found_append, ih, ihs]

/-- The same for a function or method. -/
theorem inFunction_eq {context : Context} {layers : Layers} {outer : Path}
    (view : Outer context layers outer) (isMethod : Bool) :
    ∀ f : FunctionDecl, RoutineWellFormed f →
      inFunction context (routineContextOf (some (isMethod, f))) layers f =
        found (functionSites outer (.routine isMethod f) f)
  | ⟨name, params, stmts⟩, formed => by
    obtain ⟨sites, inner⟩ := view.body isMethod name params stmts _ rfl
    have ih := inStmts_eq inner stmts formed
    rw [inFunction, functionSites, found_append, sites, ih]

/-- The same for methods. -/
theorem inMethods_eq {context : Context} {layers : Layers} {outer : Path}
    {into : FunctionDecl → Step} (view : ∀ method, Outer context layers (into method :: outer)) :
    ∀ methods : List FunctionDecl, MethodsWellFormed methods →
      inMethods context layers methods = found (methodSites outer into methods)
  | [], _ => rfl
  | method :: rest, formed => by
    have ih := inFunction_eq (view method) true method formed.1
    have ihs := inMethods_eq view rest formed.2
    rw [inMethods, methodSites, found_append, ← ihs, ← ih]
    rfl

end

/-- In a program the walk finds what the rules and distances say of its sites. -/
theorem resolve_eq {program : List Stmt} (formed : AllWellFormed program) :
    resolve program = found (programSites program) := by
  have top : View .top [] .program [] [] := ⟨.nil, rfl, rfl, fun _ => rfl⟩
  exact inStmts_eq top program formed

/-- A program that was read has one binding error for each site at which a rule is broken, at
    the token that the rule names, and no others. -/
theorem resolve_reports_violations (fresh : NodeId) (tokens : List Token) :
    let program := (Grammar.readProgram fresh tokens).value
    ((resolve program).errors = [] ↔ ∀ site ∈ programSites program, violation site = none) ∧
      (resolve program).errors = (programSites program).filterMap violation := by
  intro program
  have formed : AllWellFormed program := Grammar.readProgram_wellFormed fresh tokens
  have errors : (resolve program).errors = (programSites program).filterMap violation := by
    rw [resolve_eq formed]
    rfl
  refine ⟨?_, errors⟩
  rw [errors]
  exact List.filterMap_eq_nil_iff

end Lox.Binding
