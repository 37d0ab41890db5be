import Mathlib
import Lox.Proofs.Grammar.Outcomes
import Lox.Proofs.Syntax.Shapes

/-! # The shape of what is read

  Every tree that is read has its shape in all its parts, whatever the tokens, and also where
  errors were recorded or a declaration was given up (`reading_keeps_shape`). Each rule of the
  grammar makes shaped trees of shaped ones, however it goes on: an error that is recorded on the
  way leaves a tree behind that is as good as any, but for lists that are too long. A statement
  that is no declaration fits wherever it stands (`Loose`), and a declaration wherever statements
  stand in a list (`Listed`).
-/

namespace Lox.Grammar

variable {clean : Prop}

/-! ### Expressions that are read -/

/-- The levels of `or` and `and` make logical nodes, and the others binary ones. -/
theorem operators_of_mem_levels {level : Level} (known : level ∈ levels) :
    level.node = .logical ∧ level.operators ⊆ Expr.logicalOperators ∨
      level.node = .binary ∧ level.operators ⊆ Expr.binaryOperators := by
  simp only [levels, List.mem_cons, List.not_mem_nil, or_false] at known
  rcases known with rfl | rfl | rfl | rfl | rfl | rfl
  case inl | inr.inl => exact .inl ⟨rfl, by simp [Expr.logicalOperators]⟩
  all_goals exact .inr ⟨rfl, by simp [Expr.binaryOperators]⟩

theorem shaped_node {level : Level} (known : level ∈ levels) {left right : Expr} {operator : Token}
    (mem : operator.kind ∈ level.operators) (hl : left.Shaped clean) (hr : right.Shaped clean) :
    (level.node left operator right).Shaped clean := by
  rcases operators_of_mem_levels known with ⟨node, within⟩ | ⟨node, within⟩
  · rw [node]
    exact Expr.shaped_logical.mpr ⟨within mem, hl, hr⟩
  · rw [node]
    exact Expr.shaped_binary.mpr ⟨within mem, hl, hr⟩

/-- A target that cannot be assigned to stands for itself, and the value is dropped. -/
theorem gives_assignTo (target : Expr) (equals : Token) (value : Expr) :
    Gives clean (assignTo target equals value) fun e =>
      target.Shaped clean → value.Shaped clean → e.Shaped clean := by
  unfold assignTo
  split
  · exact gives_freshNode.follow fun _ => .pure fun _ hv => Expr.shaped_assign.mpr hv
  · exact .pure fun ht hv => Expr.shaped_set.mpr ⟨Expr.shaped_get.mp ht, hv⟩
  · exact (gives_record _).follow fun _ => .pure fun ht _ => ht

section

variable {nested : Parser Expr} (sub : Gives clean nested (Expr.Shaped clean))
include sub

theorem gives_primary : Gives clean (primary nested) (Expr.Shaped clean) := by
  apply gives_select _ (gives_reject _)
  intro token rule chosen
  unfold primaryRule? at chosen
  split at chosen <;> cases chosen
  case h_6 =>
    exact (gives_expect _ _).follow fun _ => (gives_expect _ _).follow fun _ =>
      gives_freshNode.follow fun _ => .pure Expr.shaped_superRef
  case h_7 => exact gives_freshNode.follow fun _ => .pure Expr.shaped_thisRef
  case h_8 => exact gives_freshNode.follow fun _ => .pure Expr.shaped_var
  case h_9 =>
    apply sub.bind
    intro inner
    exact (gives_expect _ _).follow fun _ => .pure Expr.shaped_grouping.mpr
  all_goals exact .pure Expr.shaped_literal

theorem gives_callRule (callee : Expr) : Gives clean (callRule nested callee) fun e =>
    callee.Shaped clean → e.Shaped clean := by
  apply (gives_itemsBeforeParen fun count => gives_limited sub .tooManyArguments count).bind
  intro arguments
  apply (gives_expect _ _).follow
  intro paren
  refine .pure fun listed hc => ?_
  exact Expr.shaped_call.mpr ⟨listed.1, hc, listed.2⟩

theorem gives_suffixes (bound : Nat) : ∀ e, Gives clean (suffixes nested bound e) fun e' =>
    e.Shaped clean → e'.Shaped clean := by
  induction bound with
  | zero => exact fun e => .pure id
  | succ bound ih =>
    intro e
    apply gives_select _ (.pure id)
    intro token rule chosen
    obtain ⟨suffix, hsuffix, rfl⟩ := Option.map_eq_some_iff.mp chosen
    have one : Gives clean suffix fun e' => e.Shaped clean → e'.Shaped clean := by
      unfold suffixRule? at hsuffix
      split at hsuffix <;> cases hsuffix
      · exact gives_callRule sub e
      · exact (gives_expect _ _).follow fun _ => .pure Expr.shaped_get.mpr
    exact one.bind fun e' => (ih e').weaken fun _ further before he => further (before he)

theorem gives_call : Gives clean (call nested) (Expr.Shaped clean) := by
  apply (gives_primary sub).bind
  intro e
  exact gives_remaining.follow fun bound => gives_suffixes sub bound e

theorem gives_unary (bound : Nat) : Gives clean (unary nested bound) (Expr.Shaped clean) := by
  induction bound with
  | zero => exact gives_call sub
  | succ bound ih =>
    apply gives_selectIf _ (gives_call sub)
    intro token sign
    have own : token.kind ∈ Expr.unaryOperators := by
      simpa [isPrefixOperator, Expr.unaryOperators] using sign
    exact ih.bind fun right => .pure fun hr => Expr.shaped_unary.mpr ⟨own, hr⟩

omit sub in
theorem gives_chain {level : Level} (known : level ∈ levels) {operand : Parser Expr}
    (h : Gives clean operand (Expr.Shaped clean)) (bound : Nat) : ∀ left,
    Gives clean (level.chain operand bound left) fun e => left.Shaped clean → e.Shaped clean := by
  induction bound with
  | zero => exact fun left => .pure id
  | succ bound ih =>
    intro left
    apply gives_selectIf _ (.pure id)
    intro token mem
    apply h.bind
    intro right
    exact (ih _).weaken fun _ further hr hl => further (shaped_node known mem hl hr)

theorem gives_operation : ∀ {ls : List Level}, ls ⊆ levels →
    Gives clean (operation nested ls) (Expr.Shaped clean)
  | [], _ => gives_remaining.follow fun bound => gives_unary sub bound
  | level :: tighter, known => by
    have tight := gives_operation (List.subset_of_cons_subset known)
    apply tight.bind
    intro first
    exact gives_remaining.follow fun bound =>
      gives_chain (known (List.mem_cons_self ..)) tight bound first

theorem gives_assignment : Gives clean (assignment nested) (Expr.Shaped clean) := by
  apply (gives_operation sub (List.Subset.refl levels)).bind
  intro target
  apply gives_accept?_bind
  · exact .pure id
  · intro equals
    apply sub.bind
    intro value
    exact (gives_assignTo target equals value).weaken fun _ made hv ht => made ht hv

end

theorem gives_expression (depth : Nat) :
    Gives clean (expression depth) (Expr.Shaped clean) := by
  induction depth with
  | zero => exact gives_reject _
  | succ depth ih => exact gives_assignment ih

theorem gives_nestedExpression : Gives clean nestedExpression (Expr.Shaped clean) :=
  gives_remaining.follow fun depth => gives_expression depth

theorem gives_expressionUnless (kind : TokenKind) :
    Gives clean (expressionUnless kind) fun o => ∀ e ∈ o, e.Shaped clean := by
  apply gives_test (gives_nextIs kind)
  · exact .pure nofun
  · apply gives_nestedExpression.bind
    intro e
    exact .pure fun he => by simpa using he

/-! ### Statements that are read -/

/-- Whether a statement fits wherever it stands. -/
def Loose (clean : Prop) (s : Stmt) : Prop :=
  ∀ holder, s.Shaped clean holder

/-- Whether a statement or declaration fits wherever statements stand in a list. -/
def Listed (clean : Prop) (s : Stmt) : Prop :=
  ∀ holder : Holder, holder.isList → s.Shaped clean holder

theorem Loose.listed {s : Stmt} (h : Loose clean s) : Listed clean s :=
  fun holder _ => h holder

theorem gives_expressionStatement : Gives clean expressionStatement (Loose clean) := by
  apply gives_nestedExpression.bind
  intro value
  exact (gives_expect _ _).follow fun _ => .pure fun hv _ => Stmt.shaped_expression.mpr hv

theorem gives_printRule (keyword : Token) : Gives clean (printRule keyword) (Loose clean) := by
  apply gives_nestedExpression.bind
  intro value
  exact (gives_expect _ _).follow fun _ => .pure fun hv _ => Stmt.shaped_print.mpr hv

theorem gives_returnRule (keyword : Token) : Gives clean (returnRule keyword) (Loose clean) := by
  apply (gives_expressionUnless _).bind
  intro value
  exact (gives_expect _ _).follow fun _ => .pure fun hv _ => Stmt.shaped_ret.mpr hv

theorem gives_varRule : Gives clean varRule (Listed clean) := by
  apply (gives_expect _ _).follow
  intro name
  apply (gives_introducedBy gives_nestedExpression).bind
  intro initializer
  apply (gives_expect _ _).follow
  intro _
  exact .pure fun hi _ listed => Stmt.shaped_varDecl.mpr ⟨listed, hi⟩

/-- A `for` loop has the shape of the blocks and the loop it stands for. -/
theorem loose_forLoop {initializer : Option Stmt} {condition increment : Option Expr} {body : Stmt}
    (hi : ∀ s ∈ initializer, Listed clean s) (hc : ∀ e ∈ condition, e.Shaped clean)
    (hn : ∀ e ∈ increment, e.Shaped clean) (hb : Loose clean body) :
    Loose clean (forLoop initializer condition increment body) := by
  have test : (condition.getD (.literal (.bool true))).Shaped clean := by
    cases condition with
    | none => exact Expr.shaped_literal
    | some e => exact hc e rfl
  -- the body stands in the loop itself, or in a block with the increment
  have loop : Loose clean (forLoop none condition increment body) := by
    intro holder
    cases increment with
    | none => exact Stmt.shaped_whileLoop.mpr ⟨test, hb .loop⟩
    | some e =>
      have last : (Stmt.expression e).Shaped clean .block := Stmt.shaped_expression.mpr (hn e rfl)
      have round := List.forall_mem_cons.mpr ⟨hb .block, List.forall_mem_singleton.mpr last⟩
      exact Stmt.shaped_whileLoop.mpr ⟨test, Stmt.shaped_block.mpr round⟩
  cases initializer with
  | none => exact loop
  | some first =>
    intro holder
    have start : first.Shaped clean .block := hi first rfl .block rfl
    have both := List.forall_mem_cons.mpr ⟨start, List.forall_mem_singleton.mpr (loop .block)⟩
    exact Stmt.shaped_block.mpr both

section

variable {stmt : Parser Stmt} {decl : Parser (Option Stmt)}

theorem gives_blockBody (sub : Gives clean decl fun o => ∀ s ∈ o, Listed clean s) :
    Gives clean (blockBody decl) fun ss => ∀ s ∈ ss, Listed clean s := by
  apply gives_remaining.follow
  intro bound
  apply (gives_itemsUntil gives_atBodyEnd sub bound).bind
  intro body
  apply (gives_expect _ _).follow
  intro _
  exact .pure List.forall_mem_filterMap.mpr

theorem gives_ifRule (sub : Gives clean stmt (Loose clean)) :
    Gives clean (ifRule stmt) (Loose clean) := by
  apply (gives_expect _ _).follow
  intro _
  apply gives_nestedExpression.bind
  intro condition
  apply (gives_expect _ _).follow
  intro _
  apply sub.bind
  intro thenBranch
  apply (gives_introducedBy sub).bind
  intro elseBranch
  refine .pure fun he ht hc holder => ?_
  exact Stmt.shaped_ifElse.mpr ⟨hc, ht .branch, fun s mem => he s mem .branch⟩

theorem gives_whileRule (sub : Gives clean stmt (Loose clean)) :
    Gives clean (whileRule stmt) (Loose clean) := by
  apply (gives_expect _ _).follow
  intro _
  apply gives_nestedExpression.bind
  intro condition
  apply (gives_expect _ _).follow
  intro _
  apply sub.bind
  intro body
  exact .pure fun hb hc holder => Stmt.shaped_whileLoop.mpr ⟨hc, hb .loop⟩

theorem gives_forInitializer :
    Gives clean (select forInitializerRule? (some <$> expressionStatement))
      fun o => ∀ s ∈ o, Listed clean s := by
  apply gives_select
  · intro token rule chosen
    unfold forInitializerRule? at chosen
    split at chosen <;> cases chosen
    · exact .pure nofun
    · exact gives_varRule.map fun s hs => by simpa using hs
  · exact gives_expressionStatement.map fun s hs => by simpa using hs.listed

theorem gives_forRule (sub : Gives clean stmt (Loose clean)) :
    Gives clean (forRule stmt) (Loose clean) := by
  apply (gives_expect _ _).follow
  intro _
  apply gives_forInitializer.bind
  intro initializer
  apply (gives_expressionUnless _).bind
  intro condition
  apply (gives_expect _ _).follow
  intro _
  apply (gives_expressionUnless _).bind
  intro increment
  apply (gives_expect _ _).follow
  intro _
  apply sub.bind
  intro body
  exact .pure fun hb hn hc hi => loose_forLoop hi hc hn hb

theorem gives_anyStatement (hs : Gives clean stmt (Loose clean))
    (hd : Gives clean decl fun o => ∀ s ∈ o, Listed clean s) :
    Gives clean (anyStatement stmt decl) (Loose clean) := by
  apply gives_select _ gives_expressionStatement
  intro token rule chosen
  unfold statementRule? at chosen
  split at chosen <;> cases chosen
  · exact gives_forRule hs
  · exact gives_ifRule hs
  · exact gives_printRule token
  · exact gives_returnRule token
  · exact gives_whileRule hs
  · exact (gives_blockBody hd).map fun body all _ =>
      Stmt.shaped_block.mpr fun s mem => all s mem .block rfl

theorem gives_routine (kind : Routine) (sub : Gives clean decl fun o => ∀ s ∈ o, Listed clean s) :
    Gives clean (routine kind decl) (FunctionDecl.Shaped clean) := by
  have name : ∀ count, Gives clean (parameter count) fun _ => (clean → count < maxArity) ∧ True :=
    fun count => gives_limited (gives_expect _ _) .tooManyParameters count
  apply (gives_expect _ _).follow
  intro _
  apply (gives_expect _ _).follow
  intro _
  apply (gives_itemsBeforeParen name).bind
  intro params
  apply (gives_expect _ _).follow
  intro _
  apply (gives_expect _ _).follow
  intro _
  apply (gives_blockBody sub).bind
  intro body
  exact .pure fun all listed => ⟨listed.1, fun s mem => all s mem .routine rfl⟩

theorem gives_superclassName :
    Gives clean superclassName fun e => ∃ node name, e = .var node name :=
  (gives_expect _ _).follow fun name => gives_freshNode.follow fun node => .pure ⟨node, name, rfl⟩

theorem gives_classRule (sub : Gives clean decl fun o => ∀ s ∈ o, Listed clean s) :
    Gives clean (classRule decl) (Listed clean) := by
  apply (gives_expect _ _).follow
  intro name
  apply (gives_introducedBy gives_superclassName).bind
  intro parent
  apply (gives_expect _ _).follow
  intro _
  apply gives_remaining.follow
  intro bound
  apply (gives_itemsUntil gives_atBodyEnd (gives_routine .method sub) bound).bind
  intro methods
  apply (gives_expect _ _).follow
  intro _
  refine .pure fun all named holder listed => Stmt.shaped_classDecl.mpr ⟨listed, named, ?_, all⟩
  intro e mem
  obtain ⟨node, parent, rfl⟩ := named e mem
  exact Expr.shaped_var

/-- What is given up yields no tree, so that only what was read to its end has to fit. -/
theorem gives_anyDeclaration (hs : Gives clean stmt (Loose clean))
    (hd : Gives clean decl fun o => ∀ s ∈ o, Listed clean s) :
    Gives clean (anyDeclaration stmt decl) fun o => ∀ s ∈ o, Listed clean s := by
  apply gives_recovering
  apply gives_select
  · intro token rule chosen
    unfold declarationRule? at chosen
    split at chosen <;> cases chosen
    · exact gives_classRule hd
    · exact (gives_routine .function hd).map fun f hf holder listed =>
        Stmt.shaped_funDecl.mpr ⟨listed, hf⟩
    · exact gives_varRule
  · exact (gives_anyStatement hs hd).weaken fun s => Loose.listed

end

theorem gives_statement_declaration (depth : Nat) :
    Gives clean (statement depth) (Loose clean) ∧
      Gives clean (declaration depth) fun o => ∀ s ∈ o, Listed clean s := by
  induction depth with
  | zero => exact ⟨gives_reject _, gives_recovering (gives_reject _)⟩
  | succ depth ih => exact ⟨gives_anyStatement ih.1 ih.2, gives_anyDeclaration ih.1 ih.2⟩

theorem gives_program : Gives clean program fun ss => ∀ s ∈ ss, Listed clean s := by
  apply gives_remaining.follow
  intro bound
  apply (gives_itemsUntil gives_atEnd (gives_statement_declaration bound).2 bound).bind
  intro os
  exact .pure List.forall_mem_filterMap.mpr

/-! ### Programs -/

/-- Whatever the tokens, every statement that is read has its shape throughout, whether or not
    errors were recorded. If none were, then no list of parameters or arguments is too long. -/
theorem reading_keeps_shape (fresh : NodeId) (tokens : List Token) :
    ∀ s ∈ (readProgram fresh tokens).value,
      s.Shaped ((readProgram fresh tokens).errors = []) .program := by
  unfold readProgram
  cases run : program (start fresh tokens) with
  | ok statements s' =>
    intro s mem
    exact (gives_program.ends run id).2 s mem .program rfl
  | error e s' => exact nofun

/-- The theorem at `if (a) var b; class b < a { a() { -true = a; return; } }`, where the first
    declaration is given up and the target in the method is none. -/
theorem reading_keeps_shape_amid_errors :
    let word := fun k : Keyword => (⟨.keyword k, k.spelling, 1⟩ : Token)
    let sign := fun p : Punctuator => (⟨.punctuator p, p.spelling, 1⟩ : Token)
    let a : Token := ⟨.identifier, "a", 1⟩
    let b : Token := ⟨.identifier, "b", 1⟩
    let tokens := [word .ifWord, sign .leftParen, a, sign .rightParen, word .varWord, b,
      sign .semicolon, word .classWord, b, sign .less, a, sign .leftBrace, a, sign .leftParen,
      sign .rightParen, sign .leftBrace, sign .minus, word .trueWord, sign .equal, a,
      sign .semicolon, word .returnWord, sign .semicolon, sign .rightBrace, sign .rightBrace]
    let tree := Stmt.classDecl b (some (.var 1 a)) [⟨a, [],
      [.expression (.unary (sign .minus) (.literal (.bool true))), .ret (word .returnWord) none]⟩]
    (readProgram 0 tokens).errors =
        [⟨some (word .varWord), .expression⟩, ⟨some (sign .equal), .assignmentTarget⟩] ∧
      tree ∈ (readProgram 0 tokens).value ∧
      tree.Shaped ((readProgram 0 tokens).errors = []) .program := by
  intro word sign a b tokens tree
  have value : (readProgram 0 tokens).value = [tree] := by cbv
  have mem : tree ∈ (readProgram 0 tokens).value := value ▸ List.mem_singleton_self tree
  have errors : (readProgram 0 tokens).errors =
      [⟨some (word .varWord), .expression⟩, ⟨some (sign .equal), .assignmentTarget⟩] := by cbv
  exact ⟨errors, mem, reading_keeps_shape 0 tokens tree mem⟩

end Lox.Grammar
