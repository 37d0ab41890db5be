import Mathlib.Logic.Relation
import Mathlib.Tactic.MkIffOfInductiveProp
import Lox.Proofs.Binding.Sites

/-! # The shape of trees

  The types of trees leave more room than the walk over a program and its evaluation expect:
  a superclass is to be a name, a declaration is to stand in a list of statements and not as a
  branch or as the body of a loop, and an operator is to be one of its form. `Expr.Shaped` and
  `Stmt.Shaped` say so of a tree and of everything in it. They also bound the length of lists of
  parameters and arguments, but only in case of a condition, `clean`.
-/

namespace Lox

/-! ### Trees and their parts -/

section

variable {α : Type} {parts : α → List α} {P : α → Prop} {whole : α}

/-- Whether a property holds of a tree and of everything in it; `parts` are those that stand in
    a tree directly. -/
def Throughout (parts : α → List α) (P : α → Prop) (whole : α) : Prop :=
  ∀ part, Relation.ReflTransGen (fun a b => b ∈ parts a) whole part → P part

theorem throughout_iff :
    Throughout parts P whole ↔ P whole ∧ ∀ part ∈ parts whole, Throughout parts P part := by
  constructor
  · intro all
    exact ⟨all whole .refl, fun part mem deep inside => all deep (.head mem inside)⟩
  · intro h deep inside
    obtain ⟨own, each⟩ := h
    rcases inside.cases_head with rfl | ⟨part, mem, further⟩
    · exact own
    · exact each part mem deep further

end

/-! ### Expressions -/

namespace Expr

variable {clean : Prop}

/-- The expressions that stand in an expression directly. -/
@[simp] def operands : Expr → List Expr
  | literal _ | var .. | thisRef .. | superRef .. => []
  | grouping inner => [inner]
  | unary _ right => [right]
  | binary left _ right | logical left _ right => [left, right]
  | assign _ _ value => [value]
  | call callee _ arguments => callee :: arguments
  | get object _ => [object]
  | set object _ value => [object, value]

/-- The operators that stand before their operand. -/
def unaryOperators : List TokenKind :=
  [.punctuator .bang, .punctuator .minus]

/-- The operators that evaluate both of their operands. -/
def binaryOperators : List TokenKind :=
  [.punctuator .minus, .punctuator .plus, .punctuator .slash, .punctuator .star,
    .punctuator .equalEqual, .punctuator .bangEqual, .punctuator .less, .punctuator .lessEqual,
    .punctuator .greater, .punctuator .greaterEqual]

/-- The operators that may leave their right operand alone. -/
def logicalOperators : List TokenKind :=
  [.keyword .andWord, .keyword .orWord]

/-- Whether an expression itself has an operator of its form and, in case of `clean`, not too many
    arguments. -/
@[simp] def NodeFits (clean : Prop) : Expr → Prop
  | unary operator _ => operator.kind ∈ unaryOperators
  | binary _ operator _ => operator.kind ∈ binaryOperators
  | logical _ operator _ => operator.kind ∈ logicalOperators
  | call _ _ arguments => clean → arguments.length ≤ 255
  | _ => True

/-- Whether an expression and everything in it fits. -/
def Shaped (clean : Prop) (e : Expr) : Prop :=
  Throughout operands (NodeFits clean) e

theorem shaped_iff {e : Expr} :
    e.Shaped clean ↔ e.NodeFits clean ∧ ∀ x ∈ e.operands, x.Shaped clean :=
  throughout_iff

@[simp] theorem shaped_literal {value : Literal} : (literal value).Shaped clean := by
  rw [shaped_iff]
  simp

@[simp] theorem shaped_var {node : NodeId} {name : Token} : (var node name).Shaped clean := by
  rw [shaped_iff]
  simp

@[simp] theorem shaped_thisRef {node : NodeId} {keyword : Token} :
    (thisRef node keyword).Shaped clean := by
  rw [shaped_iff]
  simp

@[simp] theorem shaped_superRef {node : NodeId} {keyword method : Token} :
    (superRef node keyword method).Shaped clean := by
  rw [shaped_iff]
  simp

@[simp] theorem shaped_grouping {inner : Expr} :
    (grouping inner).Shaped clean ↔ inner.Shaped clean := by
  rw [shaped_iff]
  simp

@[simp] theorem shaped_unary {operator : Token} {right : Expr} :
    (unary operator right).Shaped clean ↔
      operator.kind ∈ unaryOperators ∧ right.Shaped clean := by
  rw [shaped_iff]
  simp

@[simp] theorem shaped_binary {left right : Expr} {operator : Token} :
    (binary left operator right).Shaped clean ↔
      operator.kind ∈ binaryOperators ∧ left.Shaped clean ∧ right.Shaped clean := by
  rw [shaped_iff]
  simp

@[simp] theorem shaped_logical {left right : Expr} {operator : Token} :
    (logical left operator right).Shaped clean ↔
      operator.kind ∈ logicalOperators ∧ left.Shaped clean ∧ right.Shaped clean := by
  rw [shaped_iff]
  simp

@[simp] theorem shaped_assign {node : NodeId} {name : Token} {value : Expr} :
    (assign node name value).Shaped clean ↔ value.Shaped clean := by
  rw [shaped_iff]
  simp

@[simp] theorem shaped_call {callee : Expr} {paren : Token} {arguments : List Expr} :
    (call callee paren arguments).Shaped clean ↔
      (clean → arguments.length ≤ 255) ∧ callee.Shaped clean ∧
        ∀ e ∈ arguments, e.Shaped clean := by
  rw [shaped_iff]
  simp

@[simp] theorem shaped_get {object : Expr} {name : Token} :
    (get object name).Shaped clean ↔ object.Shaped clean := by
  rw [shaped_iff]
  simp

@[simp] theorem shaped_set {object value : Expr} {name : Token} :
    (set object name value).Shaped clean ↔ object.Shaped clean ∧ value.Shaped clean := by
  rw [shaped_iff]
  simp

end Expr

/-! ### Statements -/

/-- What a statement stands in directly. -/
inductive Holder where
  /-- The program. -/
  | program
  /-- The list of a block. -/
  | block
  /-- The body of a function or method. -/
  | routine
  /-- An `if`, as one of its branches. -/
  | branch
  /-- A `while`, as its body. -/
  | loop
  deriving DecidableEq, Repr

/-- Whether statements stand there one after another. -/
def Holder.isList : Holder → Bool
  | program | block | routine => true
  | branch | loop => false

namespace Stmt

variable {clean : Prop} {holder : Holder}

/-- The statements that stand in a statement directly, each with what it stands in. -/
@[simp] def parts : Stmt → List (Holder × Stmt)
  | expression _ | print .. | varDecl .. | ret .. => []
  | block body => body.map (.block, ·)
  | ifElse _ thenBranch elseBranch => (thenBranch :: elseBranch.toList).map (.branch, ·)
  | whileLoop _ body => [(.loop, body)]
  | funDecl f => f.body.map (.routine, ·)
  | classDecl _ _ methods => (methods.flatMap FunctionDecl.body).map (.routine, ·)

/-- The expressions that stand in a statement directly. -/
@[simp] def expressions : Stmt → List Expr
  | expression value | print _ value => [value]
  | varDecl _ initializer => initializer.toList
  | block _ | funDecl _ => []
  | ifElse condition .. | whileLoop condition _ => [condition]
  | ret _ value => value.toList
  | classDecl _ superclass _ => superclass.toList

/-- The function or the methods that a statement declares. -/
@[simp] def routines : Stmt → List FunctionDecl
  | funDecl f => [f]
  | classDecl _ _ methods => methods
  | _ => []

/-- The superclass of the class that a statement declares. -/
@[simp] def superclass? : Stmt → Option Expr
  | classDecl _ superclass _ => superclass
  | _ => none

/-- Whether a statement itself fits where it stands. -/
@[mk_iff]
structure NodeFits (clean : Prop) (holder : Holder) (s : Stmt) : Prop where
  /-- A declaration stands in a list of statements. -/
  listed : (Binding.declared? s).isSome → holder.isList
  /-- A superclass is given by name. -/
  named : Binding.NamesSuperclass s.superclass?
  /-- In case of `clean` there are not too many parameters. -/
  few : clean → ∀ f ∈ s.routines, f.params.length ≤ 255
  /-- Its expressions fit throughout. -/
  expressions : ∀ e ∈ s.expressions, e.Shaped clean

/-- Whether a statement and everything in it fits. -/
def Shaped (clean : Prop) (holder : Holder) (s : Stmt) : Prop :=
  Throughout (fun x => x.2.parts) (fun x => x.2.NodeFits clean x.1) (holder, s)

theorem shaped_iff {s : Stmt} :
    s.Shaped clean holder ↔
      s.NodeFits clean holder ∧ ∀ x ∈ s.parts, x.2.Shaped clean x.1 :=
  throughout_iff

/-- Of a statement that declares nothing, only what stands in it has to fit. -/
theorem shaped_iff_parts {s : Stmt} (quiet : Binding.declared? s = none) :
    s.Shaped clean holder ↔
      (∀ e ∈ s.expressions, e.Shaped clean) ∧ ∀ x ∈ s.parts, x.2.Shaped clean x.1 := by
  have plain : s.routines = [] ∧ s.superclass? = none := by
    cases s with
    | funDecl | classDecl => cases quiet
    | _ => exact ⟨rfl, rfl⟩
  rw [shaped_iff, nodeFits_iff, quiet, plain.1, plain.2]
  simp [Binding.NamesSuperclass]

@[simp] theorem shaped_expression {value : Expr} :
    (expression value).Shaped clean holder ↔ value.Shaped clean := by
  rw [shaped_iff_parts rfl]
  simp

@[simp] theorem shaped_print {keyword : Token} {value : Expr} :
    (print keyword value).Shaped clean holder ↔ value.Shaped clean := by
  rw [shaped_iff_parts rfl]
  simp

@[simp] theorem shaped_ret {keyword : Token} {value : Option Expr} :
    (ret keyword value).Shaped clean holder ↔ ∀ e ∈ value, e.Shaped clean := by
  rw [shaped_iff_parts rfl]
  simp

@[simp] theorem shaped_block {body : List Stmt} :
    (block body).Shaped clean holder ↔ ∀ s ∈ body, s.Shaped clean .block := by
  rw [shaped_iff_parts rfl]
  simp

@[simp] theorem shaped_ifElse {condition : Expr} {thenBranch : Stmt} {elseBranch : Option Stmt} :
    (ifElse condition thenBranch elseBranch).Shaped clean holder ↔
      condition.Shaped clean ∧ thenBranch.Shaped clean .branch ∧
        ∀ s ∈ elseBranch, s.Shaped clean .branch := by
  rw [shaped_iff_parts rfl]
  simp

@[simp] theorem shaped_whileLoop {condition : Expr} {body : Stmt} :
    (whileLoop condition body).Shaped clean holder ↔
      condition.Shaped clean ∧ body.Shaped clean .loop := by
  rw [shaped_iff_parts rfl]
  simp

@[simp] theorem shaped_varDecl {name : Token} {initializer : Option Expr} :
    (varDecl name initializer).Shaped clean holder ↔
      holder.isList ∧ ∀ e ∈ initializer, e.Shaped clean := by
  rw [shaped_iff, nodeFits_iff]
  simp [Binding.declared?, Binding.NamesSuperclass]

end Stmt

/-- Whether a function has not too many parameters in case of `clean`, and everything in it
    fits. -/
def FunctionDecl.Shaped (clean : Prop) (f : FunctionDecl) : Prop :=
  (clean → f.params.length ≤ 255) ∧ ∀ s ∈ f.body, s.Shaped clean .routine

namespace Stmt

variable {clean : Prop} {holder : Holder}

@[simp] theorem shaped_funDecl {f : FunctionDecl} :
    (funDecl f).Shaped clean holder ↔ holder.isList ∧ f.Shaped clean := by
  rw [shaped_iff, nodeFits_iff, FunctionDecl.Shaped]
  simp [Binding.declared?, Binding.NamesSuperclass, and_assoc]

@[simp] theorem shaped_classDecl {name : Token} {superclass : Option Expr}
    {methods : List FunctionDecl} :
    (classDecl name superclass methods).Shaped clean holder ↔
      holder.isList ∧ Binding.NamesSuperclass superclass ∧
        (∀ e ∈ superclass, e.Shaped clean) ∧ ∀ f ∈ methods, f.Shaped clean := by
  rw [shaped_iff]
  constructor
  · intro h
    obtain ⟨own, inner⟩ := h
    refine ⟨own.listed rfl, own.named, ?_, ?_⟩
    · intro e mem
      exact own.expressions e (Option.mem_toList.mpr mem)
    · intro f mem
      refine ⟨fun is => own.few is f mem, fun s hs => inner (.routine, s) ?_⟩
      exact List.mem_map_of_mem (List.mem_flatMap.mpr ⟨f, mem, hs⟩)
  · intro h
    obtain ⟨listed, named, parent, all⟩ := h
    refine ⟨⟨fun _ => listed, named, fun is f mem => (all f mem).1 is, ?_⟩, ?_⟩
    · intro e mem
      exact parent e (Option.mem_toList.mp mem)
    · intro x mem
      obtain ⟨s, hs, rfl⟩ := List.mem_map.mp mem
      obtain ⟨f, hf, hs⟩ := List.mem_flatMap.mp hs
      exact (all f hf).2 s hs

end Stmt

end Lox
