import Mathlib.Data.List.Forall2
import Lox.Binding.Resolution

/-! # Places in programs

  The static rules speak of where something stands: in which statement of which list, in
  which function and in which class. `Path` describes such a place from the inside out by
  what stands around it, and `programSites` lists everything in a program that a rule speaks
  of, each with its path. The rules themselves (`violation`) and the distance from a
  reference to its declaration (`Path.hops?`) are read off the path alone.
-/

namespace Lox.Binding

/-! ### Paths -/

/-- A list of statements that stands somewhere. -/
inductive Body where
  /-- A whole program. -/
  | program
  /-- The statements of a block. -/
  | block (body : List Stmt)
  /-- The statements of a function or method. -/
  | routine (isMethod : Bool) (f : FunctionDecl)

/-- One step from the outside in. -/
inductive Step where
  /-- To one of the statements of a list; `before` are those that stand before it. -/
  | within (body : Body) (before : List Stmt) (current : Stmt)
  /-- To one of the methods of a class. -/
  | inClass (name : Token) (superclass : Option Expr) (methods : List FunctionDecl)
      (method : FunctionDecl)

/-- What stands around a place, innermost first. -/
abbrev Path := List Step

/-- What gives rise to a scope. References have identities, and so a construct that has one
    in it stands in one place of one program only. -/
inductive Construct where
  /-- A block. -/
  | block (body : List Stmt)
  /-- A function or method, whose parameters and statements share one scope. -/
  | routine (f : FunctionDecl)
  /-- The `this` around a method of a class. -/
  | thisLayer (method : FunctionDecl)
  /-- The `super` around the methods of a class. -/
  | superLayer (methods : List FunctionDecl)

/-- The name that a statement declares in the scope it stands in. -/
def declared? : Stmt → Option Token
  | .varDecl name _ => some name
  | .funDecl f => some f.name
  | .classDecl name _ _ => some name
  | _ => none

/-- The names that statements declare in the scope they stand in. -/
def declaredNames (ss : List Stmt) : List String :=
  (ss.filterMap declared?).map (·.lexeme)

/-- The scope of a list of statements, with the names it has after some of them; a program
    has none. -/
def Body.scope? (after : List Stmt) : Body → Option (Construct × List String)
  | program => none
  | block body => some (.block body, declaredNames after)
  | routine _ f => some (.routine f, f.params.map (·.lexeme) ++ declaredNames after)

/-- The scopes that a step enters, innermost first. In the statement it leads to, what the
    statement declares is known. -/
def Step.scopes : Step → List (Construct × List String)
  | within body before current => (body.scope? (before ++ [current])).toList
  | inClass _ superclass methods method =>
    (.thisLayer method, ["this"]) ::
      if superclass.isSome then [(.superLayer methods, ["super"])] else []

/-- The scopes around a place, innermost first, with the names known there. -/
def Path.scopes (path : Path) : List (Construct × List String) :=
  path.flatMap Step.scopes

/-- The number of scopes between a place and the first one that declares a name. -/
def Path.hops? (path : Path) (name : Token) : Option Nat :=
  path.scopes.findIdx? (·.2.contains name.lexeme)

/-- The function or method that a list of statements is the body of. -/
def Body.routine? : Body → Option (Bool × FunctionDecl)
  | routine isMethod f => some (isMethod, f)
  | _ => none

/-- The function or method that a step enters. -/
def Step.routine? : Step → Option (Bool × FunctionDecl)
  | within body _ _ => body.routine?
  | inClass .. => none

/-- Whether the class that a step enters has a superclass. -/
def Step.inherits? : Step → Option Bool
  | within .. => none
  | inClass _ superclass _ _ => some superclass.isSome

/-- The innermost function or method around a place. -/
def Path.routine? (path : Path) : Option (Bool × FunctionDecl) :=
  path.findSome? Step.routine?

/-- Whether the innermost class around a place has a superclass, if there is one. -/
def Path.inherits? (path : Path) : Option Bool :=
  path.findSome? Step.inherits?

/-- The names that the scope of a place has before the statement it is in; the global scope
    counts for none. -/
def Path.namesBefore : Path → List String
  | .within body before _ :: _ => (body.scope? before).elim [] (·.2)
  | _ => []

/-- Whether a place is in a list of statements that has a scope of its own. -/
def Path.isLocal : Path → Bool
  | .within body _ _ :: _ => (body.scope? []).isSome
  | _ => false

theorem scopes_within (body : Body) (before : List Stmt) (current : Stmt) (outer : Path) :
    Path.scopes (.within body before current :: outer) =
      (body.scope? (before ++ [current])).toList ++ outer.scopes := by
  unfold Path.scopes
  rw [List.flatMap_cons]
  rfl

theorem declaredNames_append_none {before : List Stmt} {s : Stmt} (h : declared? s = none) :
    declaredNames (before ++ [s]) = declaredNames before := by
  unfold declaredNames
  rw [List.filterMap_append, List.filterMap_cons_none h, List.filterMap_nil, List.append_nil]

theorem declaredNames_append_some {before : List Stmt} {s : Stmt} {name : Token}
    (h : declared? s = some name) :
    declaredNames (before ++ [s]) = declaredNames before ++ [name.lexeme] := by
  unfold declaredNames
  rw [List.filterMap_append, List.filterMap_cons_some h, List.filterMap_nil, List.map_append]
  rfl

theorem scope?_append_none (body : Body) {before : List Stmt} {s : Stmt}
    (h : declared? s = none) : body.scope? (before ++ [s]) = body.scope? before := by
  cases body with
  | program => rfl
  | _ =>
    unfold Body.scope?
    rw [declaredNames_append_none h]

/-! ### Sites -/

/-- A node that refers to a name. -/
inductive Occurrence where
  /-- A variable that is read. -/
  | read (node : NodeId) (name : Token)
  /-- A variable that is given a new value. -/
  | assign (node : NodeId) (name : Token)
  /-- `this`. -/
  | self (node : NodeId) (keyword : Token)
  /-- `super`. -/
  | parent (node : NodeId) (keyword : Token)

/-- The identity of a node. -/
def Occurrence.node : Occurrence → NodeId
  | read node _ => node
  | assign node _ => node
  | self node _ => node
  | parent node _ => node

/-- The name that a node refers to. -/
def Occurrence.name : Occurrence → Token
  | read _ name => name
  | assign _ name => name
  | self _ keyword => keyword
  | parent _ keyword => keyword

/-- Something that a rule speaks of, and where it stands. -/
inductive Site where
  /-- A node that refers to a name; `initialized` is the variable whose initializer it
      stands in, if it does. -/
  | occurrence (path : Path) (initialized : Option Token) (o : Occurrence)
  /-- The name of a variable, function or class at its declaration. -/
  | declaration (path : Path) (name : Token)
  /-- A parameter, and those that stand before it. -/
  | parameter (earlier : List Token) (name : Token)
  /-- A `return`, with or without a value. -/
  | ret (path : Path) (keyword : Token) (hasValue : Bool)
  /-- The name of the superclass of a class. -/
  | superclass (name parent : Token)

mutual

/-- The nodes of an expression that refer to names. -/
def occurrences : Expr → List Occurrence
  | .literal _ => []
  | .grouping inner => occurrences inner
  | .unary _ right => occurrences right
  | .binary left _ right => occurrences left ++ occurrences right
  | .logical left _ right => occurrences left ++ occurrences right
  | .var node name => [.read node name]
  | .assign node name value => occurrences value ++ [.assign node name]
  | .call callee _ arguments => occurrences callee ++ occurrencesAll arguments
  | .get object _ => occurrences object
  | .set object _ value => occurrences value ++ occurrences object
  | .thisRef node keyword => [.self node keyword]
  | .superRef node keyword _ => [.parent node keyword]

/-- The nodes of arguments that refer to names. -/
def occurrencesAll : List Expr → List Occurrence
  | [] => []
  | argument :: rest => occurrences argument ++ occurrencesAll rest

end

/-- The sites of an expression that stands at a path. -/
def exprSites (path : Path) (initialized : Option Token) (e : Expr) : List Site :=
  (occurrences e).map (.occurrence path initialized)

/-- The sites of an expression that may be absent. -/
def optionSites (path : Path) (initialized : Option Token) : Option Expr → List Site
  | some e => exprSites path initialized e
  | none => []

/-- The sites of a parameter list. -/
def parameterSites (earlier : List Token) : List Token → List Site
  | [] => []
  | param :: rest => .parameter earlier param :: parameterSites (earlier ++ [param]) rest

/-- The sites of a superclass that is given by name. -/
def superclassSites (path : Path) (name : Token) : Option Expr → List Site
  | some (.var node parent) => .superclass name parent :: exprSites path none (.var node parent)
  | _ => []

mutual

/-- The sites of a statement that stands at a path. -/
def stmtSites (path : Path) : Stmt → List Site
  | .expression value => exprSites path none value
  | .print _ value => exprSites path none value
  | .varDecl name initializer =>
    .declaration path name :: optionSites path (some name) initializer
  | .block body => bodySites path (.block body) [] body
  | .ifElse condition thenBranch none =>
    exprSites path none condition ++ stmtSites path thenBranch
  | .ifElse condition thenBranch (some elseBranch) =>
    exprSites path none condition ++ stmtSites path thenBranch ++ stmtSites path elseBranch
  | .whileLoop condition body => exprSites path none condition ++ stmtSites path body
  | .funDecl f => .declaration path f.name :: functionSites path (.routine false f) f
  | .ret keyword value => .ret path keyword value.isSome :: optionSites path none value
  | .classDecl name superclass methods =>
    .declaration path name :: superclassSites path name superclass ++
      methodSites path (.inClass name superclass methods) methods

/-- The sites of statements of a body, some of which stand before them. -/
def bodySites (outer : Path) (body : Body) (before : List Stmt) : List Stmt → List Site
  | [] => []
  | s :: rest =>
    stmtSites (.within body before s :: outer) s ++ bodySites outer body (before ++ [s]) rest

/-- The sites of a function or method. -/
def functionSites (outer : Path) (body : Body) : FunctionDecl → List Site
  | ⟨_, params, stmts⟩ => parameterSites [] params ++ bodySites outer body [] stmts

/-- The sites of methods, with the step that leads to each of them. -/
def methodSites (outer : Path) (into : FunctionDecl → Step) : List FunctionDecl → List Site
  | [] => []
  | method :: rest =>
    functionSites (into method :: outer) (.routine true method) method ++
      methodSites outer into rest

end

theorem functionSites_eq (outer : Path) (body : Body) (f : FunctionDecl) :
    functionSites outer body f =
      parameterSites [] f.params ++ bodySites outer body [] f.body := by
  cases f
  rw [functionSites]

/-- The sites of a program. -/
def programSites (program : List Stmt) : List Site :=
  bodySites [] .program [] program

/-! ### The rules -/

/-- What is wrong at a site, going by where it stands. -/
def violation : Site → Option BindingError
  -- a local variable is read in its own initializer
  | .occurrence path initialized (.read _ name) =>
    if path.isLocal && initialized.any (·.lexeme == name.lexeme) then
      some ⟨name, .readInInitializer⟩
    else none
  | .occurrence _ _ (.assign _ _) => none
  -- `this` in no class
  | .occurrence path _ (.self _ keyword) =>
    if path.inherits?.isNone then some ⟨keyword, .thisOutside⟩ else none
  -- `super` in no class, or in a class that inherits from none
  | .occurrence path _ (.parent _ keyword) =>
    match path.inherits? with
    | none => some ⟨keyword, .superOutside⟩
    | some false => some ⟨keyword, .superWithoutSuperclass⟩
    | some true => none
  -- a second declaration in one scope
  | .declaration path name =>
    if path.namesBefore.contains name.lexeme then some ⟨name, .redeclaration⟩ else none
  | .parameter earlier name =>
    if (earlier.map (·.lexeme)).contains name.lexeme then some ⟨name, .redeclaration⟩ else none
  -- a `return` in no function, or with a value in an initializer
  | .ret path keyword hasValue =>
    match path.routine? with
    | none => some ⟨keyword, .returnOutside⟩
    | some (isMethod, f) =>
      if hasValue && isMethod && f.isInitializer then some ⟨keyword, .returnFromInitializer⟩
      else none
  -- a class that inherits from itself
  | .superclass name parent =>
    if parent.lexeme == name.lexeme then some ⟨parent, .selfInheritance⟩ else none

/-- The reference that is noted at a site. A misplaced `this` refers to nothing. -/
def Site.reference? : Site → Option Reference
  | .occurrence path _ (.self node keyword) =>
    if path.inherits?.isNone then none else some ⟨node, keyword, path.hops? keyword⟩
  | .occurrence path _ o => some ⟨o.node, o.name, path.hops? o.name⟩
  | _ => none

/-! ### Names and identities -/

/-- The identity of the node that stands at a site. -/
def Site.node? : Site → Option NodeId
  | occurrence _ _ o => some o.node
  | _ => none

section

variable (T : Token → Prop)

/-- Whether a token is a name and has a property. -/
def IsName (t : Token) : Prop :=
  T t ∧ t.kind = .identifier

/-- Whether a node refers to a name by a name, and to the others by their keywords. -/
def Occurrence.Proper : Occurrence → Prop
  | read _ name => IsName T name
  | assign _ name => IsName T name
  | self _ keyword => T keyword ∧ keyword.kind = .keyword .thisWord
  | parent _ keyword => T keyword ∧ keyword.kind = .keyword .superWord

/-- Whether what a statement declares has a name. -/
def DeclaresName (s : Stmt) : Prop :=
  ∀ name, declared? s = some name → IsName T name

/-- Whether the parameters around a list of statements are names. -/
def Body.Proper : Body → Prop
  | routine _ f => ∀ param ∈ f.params, IsName T param
  | _ => True

/-- Whether all that is declared by a step are names. -/
def Step.Proper : Step → Prop
  | within body before current =>
    body.Proper T ∧ ∀ s ∈ before ++ [current], DeclaresName T s
  | inClass .. => True

/-- Whether all that is declared around a place are names. -/
def Path.Proper (path : Path) : Prop :=
  ∀ step ∈ path, step.Proper T

/-- Whether all that has to do with a reference are names, or the keywords they should be, and
    what is declared is a name. -/
def Site.Proper : Site → Prop
  | occurrence path initialized o =>
    path.Proper T ∧ (∀ name, initialized = some name → IsName T name) ∧ o.Proper T
  | declaration _ name => IsName T name
  | _ => True

end

section

variable {T U : Token → Prop} (sub : ∀ t, T t → U t)
include sub

theorem IsName.imp {t : Token} (h : IsName T t) : IsName U t :=
  ⟨sub t h.1, h.2⟩

theorem Step.Proper.imp {step : Step} (h : step.Proper T) : step.Proper U := by
  cases step with
  | inClass => exact trivial
  | within body before current =>
    refine ⟨?_, fun s hs name declares => IsName.imp sub (h.2 s hs name declares)⟩
    cases body with
    | routine isMethod f => exact fun param hparam => IsName.imp sub (h.1 param hparam)
    | _ => exact trivial

theorem Site.Proper.imp {site : Site} (h : site.Proper T) : site.Proper U := by
  cases site with
  | occurrence path initialized o =>
    obtain ⟨around, named, proper⟩ := h
    refine ⟨fun step hstep => (around step hstep).imp sub,
      fun name same => (named name same).imp sub, ?_⟩
    cases o with
    | read => exact IsName.imp sub proper
    | assign => exact IsName.imp sub proper
    | self => exact ⟨sub _ proper.1, proper.2⟩
    | parent => exact ⟨sub _ proper.1, proper.2⟩
  | declaration path name => exact IsName.imp sub h
  | _ => exact trivial

end

/-! ### Forms that can be read -/

/-- Whether a superclass, if there is one, is given by name. -/
def NamesSuperclass (superclass : Option Expr) : Prop :=
  ∀ e, superclass = some e → ∃ node name, e = .var node name

mutual

/-- Whether a statement has a form that can be read: no branch and no loop body is itself a
    declaration, and superclasses are given by name. -/
def WellFormed : Stmt → Prop
  | .block body => AllWellFormed body
  | .ifElse _ thenBranch none => declared? thenBranch = none ∧ WellFormed thenBranch
  | .ifElse _ thenBranch (some elseBranch) =>
    (declared? thenBranch = none ∧ WellFormed thenBranch) ∧
      declared? elseBranch = none ∧ WellFormed elseBranch
  | .whileLoop _ body => declared? body = none ∧ WellFormed body
  | .funDecl f => RoutineWellFormed f
  | .classDecl _ superclass methods => NamesSuperclass superclass ∧ MethodsWellFormed methods
  | _ => True

/-- Whether all of the given statements have forms that can be read. -/
def AllWellFormed : List Stmt → Prop
  | [] => True
  | s :: rest => WellFormed s ∧ AllWellFormed rest

/-- Whether the statements of a function have forms that can be read. -/
def RoutineWellFormed : FunctionDecl → Prop
  | ⟨_, _, body⟩ => AllWellFormed body

/-- Whether the statements of methods have forms that can be read. -/
def MethodsWellFormed : List FunctionDecl → Prop
  | [] => True
  | method :: rest => RoutineWellFormed method ∧ MethodsWellFormed rest

end

theorem routineWellFormed_iff (f : FunctionDecl) :
    RoutineWellFormed f ↔ AllWellFormed f.body := by
  cases f
  rw [RoutineWellFormed]

end Lox.Binding
