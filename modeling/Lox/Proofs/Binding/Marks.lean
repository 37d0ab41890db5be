import Lox.Proofs.Binding.Sites
import Lox.Proofs.Grammar.Phrases

/-! # Tokens that the rules speak of

  An error of the walk stands at a token that the tree has kept: a name where it is declared
  or read, or one of the keywords `this`, `super` and `return`. Here these tokens are listed
  for every form of tree, in the order of its sites. They do not depend on where the tree
  stands, nor on the identities of its nodes.
-/

namespace Lox.Binding

/-! ### Sites -/

/-- The token that an error at a node would stand at; no rule speaks of a variable that is
    given a new value. -/
def Occurrence.mark? : Occurrence → Option Token
  | read _ name => some name
  | assign _ _ => none
  | self _ keyword => some keyword
  | parent _ keyword => some keyword

/-- The token that an error at a site would stand at. -/
def Site.mark? : Site → Option Token
  | occurrence _ _ o => o.mark?
  | declaration _ name => some name
  | parameter _ name => some name
  | ret _ keyword _ => some keyword
  | superclass _ parent => some parent

/-- The tokens that errors at some sites would stand at. -/
def marksOf (sites : List Site) : List Token :=
  sites.filterMap Site.mark?

theorem mark?_of_violation {site : Site} {e : BindingError} (h : violation site = some e) :
    site.mark? = some e.token := by
  -- every rule blames the token that its site is about
  cases site with
  | occurrence path initialized o => cases o <;> grind [violation, Site.mark?, Occurrence.mark?]
  | _ => grind [violation, Site.mark?]

/-- Errors stand at some of the tokens that the rules speak of, and in the same order. -/
theorem tokens_sublist_marks (sites : List Site) :
    ((sites.filterMap violation).map (·.token)).Sublist (marksOf sites) := by
  induction sites with
  | nil => exact List.Sublist.refl []
  | cons site rest ih =>
    have later : (marksOf rest).Sublist (marksOf (site :: rest)) :=
      (List.sublist_cons_self site rest).filterMap Site.mark?
    cases h : violation site with
    | none =>
      rw [List.filterMap_cons_none h]
      exact ih.trans later
    | some e =>
      rw [List.filterMap_cons_some h, List.map_cons, marksOf,
        List.filterMap_cons_some (mark?_of_violation h)]
      exact ih.cons_cons e.token

/-! ### Trees -/

/-- The tokens that errors in an expression may stand at. -/
def exprMarks (e : Expr) : List Token :=
  (occurrences e).filterMap Occurrence.mark?

/-- The tokens that errors in arguments may stand at. -/
def argumentMarks (es : List Expr) : List Token :=
  (occurrencesAll es).filterMap Occurrence.mark?

/-- The tokens that errors in an expression that may be absent may stand at. -/
def optionMarks : Option Expr → List Token
  | some e => exprMarks e
  | none => []

/-- The tokens that errors in the superclass of a class may stand at. -/
def superclassMarks : Option Expr → List Token
  | some (.var _ parent) => [parent, parent]
  | _ => []

mutual

/-- The tokens that errors in a statement may stand at. -/
def stmtMarks : Stmt → List Token
  | .expression value => exprMarks value
  | .print _ value => exprMarks value
  | .varDecl name initializer => name :: optionMarks initializer
  | .block body => bodyMarks body
  | .ifElse condition thenBranch none => exprMarks condition ++ stmtMarks thenBranch
  | .ifElse condition thenBranch (some elseBranch) =>
    exprMarks condition ++ stmtMarks thenBranch ++ stmtMarks elseBranch
  | .whileLoop condition body => exprMarks condition ++ stmtMarks body
  | .funDecl f => f.name :: functionMarks f
  | .ret keyword value => keyword :: optionMarks value
  | .classDecl name superclass methods =>
    name :: superclassMarks superclass ++ methodMarks methods

/-- The tokens that errors in statements may stand at. -/
def bodyMarks : List Stmt → List Token
  | [] => []
  | s :: rest => stmtMarks s ++ bodyMarks rest

/-- The tokens that errors in a function may stand at. -/
def functionMarks : FunctionDecl → List Token
  | ⟨_, params, stmts⟩ => params ++ bodyMarks stmts

/-- The tokens that errors in methods may stand at. -/
def methodMarks : List FunctionDecl → List Token
  | [] => []
  | method :: rest => functionMarks method ++ methodMarks rest

end

@[simp] theorem marksOf_append (a b : List Site) :
    marksOf (a ++ b) = marksOf a ++ marksOf b :=
  List.filterMap_append

@[simp] theorem marksOf_exprSites (path : Path) (initialized : Option Token) (e : Expr) :
    marksOf (exprSites path initialized e) = exprMarks e := by
  rw [marksOf, exprSites, List.filterMap_map]
  rfl

theorem marksOf_optionSites (path : Path) (initialized : Option Token) (o : Option Expr) :
    marksOf (optionSites path initialized o) = optionMarks o := by
  cases o with
  | none => rfl
  | some e => exact marksOf_exprSites path initialized e

theorem marksOf_parameterSites (earlier params : List Token) :
    marksOf (parameterSites earlier params) = params := by
  induction params generalizing earlier with
  | nil => rfl
  | cons param rest ih => exact congrArg (param :: ·) (ih _)

theorem marksOf_superclassSites (path : Path) (name : Token) (superclass : Option Expr) :
    marksOf (superclassSites path name superclass) = superclassMarks superclass := by
  cases superclass with
  | none => rfl
  | some e => cases e <;> rfl

mutual

/-- The sites of a statement have the tokens of the statement, wherever it stands. -/
theorem marksOf_stmtSites (path : Path) : ∀ s : Stmt,
    marksOf (stmtSites path s) = stmtMarks s
  | .expression value => marksOf_exprSites path none value
  | .print _ value => marksOf_exprSites path none value
  | .varDecl name initializer =>
    congrArg (name :: ·) (marksOf_optionSites path (some name) initializer)
  | .block body => marksOf_bodySites path (.block body) [] body
  | .ifElse condition thenBranch none => by
    have iht := marksOf_stmtSites path thenBranch
    rw [stmtSites, stmtMarks, marksOf_append, marksOf_exprSites, iht]
  | .ifElse condition thenBranch (some elseBranch) => by
    have iht := marksOf_stmtSites path thenBranch
    have ihe := marksOf_stmtSites path elseBranch
    rw [stmtSites, stmtMarks, marksOf_append, marksOf_append, marksOf_exprSites, iht, ihe]
  | .whileLoop condition body => by
    have ih := marksOf_stmtSites path body
    rw [stmtSites, stmtMarks, marksOf_append, marksOf_exprSites, ih]
  | .funDecl f => congrArg (f.name :: ·) (marksOf_functionSites path (.routine false f) f)
  | .ret keyword value => congrArg (keyword :: ·) (marksOf_optionSites path none value)
  | .classDecl name superclass methods => by
    have ihs := marksOf_methodSites path (.inClass name superclass methods) methods
    rw [stmtSites, stmtMarks, marksOf_append, ihs, ← marksOf_superclassSites path name superclass]
    rfl

/-- The same for statements of a body. -/
theorem marksOf_bodySites (outer : Path) (body : Body) (before : List Stmt) :
    ∀ ss : List Stmt, marksOf (bodySites outer body before ss) = bodyMarks ss
  | [] => rfl
  | s :: rest => by
    have ih := marksOf_stmtSites (.within body before s :: outer) s
    have ihs := marksOf_bodySites outer body (before ++ [s]) rest
    rw [bodySites, bodyMarks, marksOf_append, ih, ihs]

/-- The same for a function or method. -/
theorem marksOf_functionSites (outer : Path) (body : Body) :
    ∀ f : FunctionDecl, marksOf (functionSites outer body f) = functionMarks f
  | ⟨_, params, stmts⟩ => by
    have ih := marksOf_bodySites outer body [] stmts
    rw [functionSites, functionMarks, marksOf_append, marksOf_parameterSites, ih]

/-- The same for methods. -/
theorem marksOf_methodSites (outer : Path) (into : FunctionDecl → Step) :
    ∀ methods : List FunctionDecl,
      marksOf (methodSites outer into methods) = methodMarks methods
  | [] => rfl
  | method :: rest => by
    have ih := marksOf_functionSites (into method :: outer) (.routine true method) method
    have ihs := marksOf_methodSites outer into rest
    rw [methodSites, methodMarks, marksOf_append, ih, ihs]

end

/-- The sites of a program have the tokens of its statements. -/
theorem marksOf_programSites (program : List Stmt) :
    marksOf (programSites program) = bodyMarks program :=
  marksOf_bodySites [] .program [] program

/-! ### Compound expressions -/

theorem exprMarks_binary (left right : Expr) (operator : Token) :
    exprMarks (.binary left operator right) = exprMarks left ++ exprMarks right :=
  List.filterMap_append

theorem exprMarks_logical (left right : Expr) (operator : Token) :
    exprMarks (.logical left operator right) = exprMarks left ++ exprMarks right :=
  List.filterMap_append

theorem exprMarks_assign (node : NodeId) (name : Token) (value : Expr) :
    exprMarks (.assign node name value) = exprMarks value := by
  unfold exprMarks
  rw [occurrences, List.filterMap_append]
  exact List.append_nil _

theorem exprMarks_call (callee : Expr) (paren : Token) (arguments : List Expr) :
    exprMarks (.call callee paren arguments) = exprMarks callee ++ argumentMarks arguments :=
  List.filterMap_append

/-- The value comes before the object. -/
theorem exprMarks_set (object value : Expr) (name : Token) :
    exprMarks (.set object name value) = exprMarks value ++ exprMarks object :=
  List.filterMap_append

theorem argumentMarks_cons (e : Expr) (rest : List Expr) :
    argumentMarks (e :: rest) = exprMarks e ++ argumentMarks rest :=
  List.filterMap_append

/-! ### Identities of nodes -/

mutual

theorem exprMarks_bare : ∀ e : Expr, exprMarks e.bare = exprMarks e
  | .literal _ => rfl
  | .grouping inner => exprMarks_bare inner
  | .unary _ right => exprMarks_bare right
  | .binary left _ right => by
    have ihl := exprMarks_bare left
    have ihr := exprMarks_bare right
    rw [Expr.bare, exprMarks_binary, exprMarks_binary, ihl, ihr]
  | .logical left _ right => by
    have ihl := exprMarks_bare left
    have ihr := exprMarks_bare right
    rw [Expr.bare, exprMarks_logical, exprMarks_logical, ihl, ihr]
  | .var _ _ => rfl
  | .assign _ _ value => by
    have ih := exprMarks_bare value
    rw [Expr.bare, exprMarks_assign, exprMarks_assign, ih]
  | .call callee _ arguments => by
    have ih := exprMarks_bare callee
    have ihs := argumentMarks_bare arguments
    rw [Expr.bare, exprMarks_call, exprMarks_call, ih, ihs]
  | .get object _ => exprMarks_bare object
  | .set object _ value => by
    have iho := exprMarks_bare object
    have ihv := exprMarks_bare value
    rw [Expr.bare, exprMarks_set, exprMarks_set, ihv, iho]
  | .thisRef _ _ => rfl
  | .superRef _ _ _ => rfl

theorem argumentMarks_bare : ∀ es : List Expr,
    argumentMarks (Expr.bareAll es) = argumentMarks es
  | [] => rfl
  | e :: rest => by
    have ih := exprMarks_bare e
    have ihs := argumentMarks_bare rest
    rw [Expr.bareAll, argumentMarks_cons, argumentMarks_cons, ih, ihs]

end

theorem optionMarks_bare (o : Option Expr) : optionMarks (o.map Expr.bare) = optionMarks o := by
  cases o with
  | none => rfl
  | some e => exact exprMarks_bare e

theorem superclassMarks_bare (superclass : Option Expr) :
    superclassMarks (superclass.map Expr.bare) = superclassMarks superclass := by
  cases superclass with
  | none => rfl
  | some e => cases e <;> rfl

mutual

theorem stmtMarks_bare : ∀ s : Stmt, stmtMarks s.bare = stmtMarks s
  | .expression value => exprMarks_bare value
  | .print _ value => exprMarks_bare value
  | .varDecl name initializer => congrArg (name :: ·) (optionMarks_bare initializer)
  | .block body => bodyMarks_bare body
  | .ifElse condition thenBranch none => by
    have iht := stmtMarks_bare thenBranch
    rw [Stmt.bare, Stmt.bareElse, stmtMarks, stmtMarks, exprMarks_bare, iht]
  | .ifElse condition thenBranch (some elseBranch) => by
    have iht := stmtMarks_bare thenBranch
    have ihe := stmtMarks_bare elseBranch
    rw [Stmt.bare, Stmt.bareElse, stmtMarks, stmtMarks, exprMarks_bare, iht, ihe]
  | .whileLoop condition body => by
    have ih := stmtMarks_bare body
    rw [Stmt.bare, stmtMarks, stmtMarks, exprMarks_bare, ih]
  | .funDecl f => by
    have ih := functionMarks_bare f
    cases f
    exact congrArg (_ :: ·) ih
  | .ret keyword value => congrArg (keyword :: ·) (optionMarks_bare value)
  | .classDecl name superclass methods => by
    have ihs := methodMarks_bare methods
    rw [Stmt.bare, stmtMarks, stmtMarks, superclassMarks_bare, ihs]

theorem bodyMarks_bare : ∀ ss : List Stmt, bodyMarks (Stmt.bareAll ss) = bodyMarks ss
  | [] => rfl
  | s :: rest => by
    have ih := stmtMarks_bare s
    have ihs := bodyMarks_bare rest
    rw [Stmt.bareAll, bodyMarks, bodyMarks, ih, ihs]

theorem functionMarks_bare : ∀ f : FunctionDecl, functionMarks f.bare = functionMarks f
  | ⟨_, params, stmts⟩ => congrArg (params ++ ·) (bodyMarks_bare stmts)

theorem methodMarks_bare : ∀ methods : List FunctionDecl,
    methodMarks (FunctionDecl.bareAll methods) = methodMarks methods
  | [] => rfl
  | method :: rest => by
    have ih := functionMarks_bare method
    have ihs := methodMarks_bare rest
    rw [FunctionDecl.bareAll, methodMarks, methodMarks, ih, ihs]

end

/-! ### Loops -/

theorem stmtMarks_inSequence (ss : List Stmt) :
    stmtMarks (Grammar.inSequence ss) = bodyMarks ss := by
  unfold Grammar.inSequence
  split
  · rw [bodyMarks, bodyMarks, List.append_nil]
  · rw [stmtMarks]

/-- The increment of a `for` loop comes after its body. -/
theorem stmtMarks_forTree (initializer : Option Stmt) (condition increment : Option Expr)
    (body : Stmt) :
    stmtMarks (Grammar.forTree initializer condition increment body) =
      bodyMarks initializer.toList ++ optionMarks condition ++
        (stmtMarks body ++ optionMarks increment) := by
  have without : exprMarks (.literal (.bool true)) = [] := rfl
  unfold Grammar.forTree
  rw [stmtMarks_inSequence]
  cases initializer <;> cases condition <;> cases increment <;>
    simp [bodyMarks, stmtMarks, stmtMarks_inSequence, optionMarks, without]

end Lox.Binding
