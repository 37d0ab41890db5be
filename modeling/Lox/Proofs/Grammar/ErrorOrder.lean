import Mathlib.Data.List.Pairwise
import Lox.Proofs.Grammar.Sightings

/-! # The order of syntax errors

  Reading a program notices its errors one after another, from the first token to the last
  (`errors_are_sighted_in_order`). So they come out in the order of the tokens they stand at,
  with one exception: that the target of an assignment is none is noticed after its value was
  read, and so an error in the value comes out before the one at the equals sign.
-/

namespace Lox.Grammar

variable {tokens : List Token} {n p : Nat} {slack : Bool}

/-! ### Expressions -/

section

variable {e : Parser Expr}

theorem sees_superRule (keyword : Token) : Sees tokens false slack n (superRule keyword) := by
  apply (sees_expect _ _).bind
  intro _
  apply (sees_expect _ _).bind
  intro method
  exact sees_freshNode.bind fun node => .pure _

theorem sees_groupingRule (h : Sees tokens true slack n e) :
    Sees tokens false slack n (groupingRule e) := by
  apply h.loose.bind
  intro inner
  exact (sees_expect _ _).bind fun _ => .pure _

theorem sees_primary (h : Sees tokens true slack n e) :
    Sees tokens true slack (n + 1) (primary e) := by
  apply sees_select _ (sees_reject _)
  intro token
  unfold primaryRule?
  split <;> rintro _ ⟨⟩
  · exact .pure _
  · exact .pure _
  · exact .pure _
  · exact .pure _
  · exact .pure _
  · exact sees_superRule token
  · exact sees_freshNode.bind fun node => .pure _
  · exact sees_freshNode.bind fun node => .pure _
  · exact sees_groupingRule h

theorem sees_callRule (h : Sees tokens true slack n e) (callee : Expr) :
    Sees tokens false slack n (callRule e callee) := by
  have arguments : ∀ count, Sees tokens false slack n (argument e count) :=
    fun count => (sees_limited h _ count).loose
  apply (sees_itemsBeforeParen arguments).bind
  intro values
  exact (sees_expect _ _).bind fun paren => .pure _

theorem sees_propertyRule (object : Expr) : Sees tokens false slack n (propertyRule object) :=
  (sees_expect _ _).bind fun _ => .pure _

theorem sees_suffixes (h : Sees tokens true slack n e) (bound : Nat) :
    ∀ x, Sees tokens false slack (n + 1) (suffixes e bound x) := by
  induction bound with
  | zero => exact fun x => .pure x
  | succ bound ih =>
    intro x
    have more : ∀ y, Sees tokens false slack n (suffixes e bound y) :=
      fun y => (ih y).mono (Nat.le_succ n)
    apply sees_select _ (.pure x)
    intro token
    unfold suffixRule?
    split <;> rintro _ ⟨⟩
    · exact (sees_callRule h x).bind more
    · exact (sees_propertyRule x).bind more

theorem sees_call (h : Sees tokens true slack n e) : Sees tokens true slack (n + 1) (call e) := by
  apply (sees_primary h).bind
  intro x
  exact sees_remaining.bind fun bound => sees_suffixes h bound x

theorem sees_unary (h : Sees tokens true slack n e) (bound : Nat) :
    Sees tokens true slack (n + 1) (unary e bound) := by
  induction bound with
  | zero => exact sees_call h
  | succ bound ih =>
    have operand := (ih.mono (Nat.le_succ n)).loose
    exact sees_selectIf (fun token => operand.bind fun right => .pure _) (sees_call h)

theorem sees_chain (level : Level) (h : Sees tokens true slack (n + 1) e) (bound : Nat) :
    ∀ left, Sees tokens false slack (n + 1) (level.chain e bound left) := by
  induction bound with
  | zero => exact fun left => .pure left
  | succ bound ih =>
    intro left
    have operand := (h.mono (Nat.le_succ n)).loose
    apply sees_selectIf _ (.pure left)
    intro token
    apply operand.bind
    intro right
    exact (ih _).mono (Nat.le_succ n)

theorem sees_operation (h : Sees tokens true slack n e) : ∀ levels : List Level,
    Sees tokens true slack (n + 1) (operation e levels)
  | [] => sees_remaining.follow fun bound => sees_unary h bound
  | level :: tighter => by
    have operand := sees_operation h tighter
    apply operand.bind
    intro first
    exact sees_remaining.bind fun bound => sees_chain level operand bound first

end

/-- What comes after an equals sign: if its target cannot be assigned to, that is noticed at
    the last token of the value. -/
theorem sees_assignmentRule (h : Sees tokens true false n nestedExpression) (target : Expr)
    {equals : Token} (found : (upToEnd tokens)[p]? = some equals) :
    SeesFrom tokens false false n (p + 1) (assignmentRule nestedExpression target equals) := by
  intro s cursor few
  have seen := h (p + 1) s cursor few
  unfold assignmentRule
  cases run : nestedExpression s with
  | error e s' =>
    rw [run] at seen
    rw [bind_of_error run]
    exact seen
  | ok value s' =>
    rw [run] at seen
    obtain ⟨q, xs, cursor', forth, moved, recorded, inOrder⟩ := seen
    have taken := moved rfl
    rw [bind_of_ok run]
    have plain : ∀ a (s'' : State), s''.rest = s'.rest → s''.recorded = s'.recorded →
        Seen tokens false false (p + 1) s (.ok a s'' : EStateM.Result SyntaxError State Expr) := by
      intro a s'' rest same
      refine ⟨q, xs, ⟨cursor'.1, ?_⟩, forth, nofun, ?_, inOrder⟩
      · rw [rest]
        exact cursor'.2
      · rw [same]
        exact recorded
    unfold assignTo
    split
    · exact plain _ _ rfl rfl
    · exact plain _ _ rfl rfl
    · -- the value was read, and its last token is the one before the cursor
      obtain ⟨last, rfl⟩ : ∃ last, q = last + 1 := Nat.exists_eq_succ_of_ne_zero (by omega)
      have noticed : Sighted tokens ⟨⟨some equals, .assignmentTarget⟩, p, last⟩ :=
        .target found cursor run (by omega) cursor'
      have whole : InOrder tokens (p + 1) (last + 1)
          (xs ++ [⟨⟨some equals, .assignmentTarget⟩, p, last⟩]) := by
        refine InOrder.append ?_ (.single noticed (Nat.le_refl last) (Nat.lt_succ_self last))
          (by omega) (Nat.le_refl _) (Nat.le_refl _)
        exact inOrder
      refine ⟨last + 1, _, cursor', forth, nofun, ?_, whole⟩
      show s'.recorded ++ _ = _
      rw [recorded, List.map_append, List.append_assoc]
      rfl

theorem sees_assignment (h : Sees tokens true false n nestedExpression) :
    Sees tokens true false (n + 1) (assignment nestedExpression) := by
  apply (sees_operation h levels).bind
  intro target
  rw [accept?_bind]
  refine sees_selectAt ?_ (.pure target)
  intro token rule choice p found
  split at choice
  · cases choice
    exact sees_assignmentRule h target found
  · cases choice

theorem sees_nestedExpression : Sees tokens true slack n nestedExpression := by
  -- on the number of tokens: what is nested comes after a token
  have tight : ∀ n, Sees tokens true false n nestedExpression := by
    intro n
    induction n with
    | zero => exact .zero _
    | succ n ih =>
      rw [nestedExpression_eq]
      exact sees_assignment ih
  exact (tight n).slacken

/-! ### Statements and declarations -/

theorem sees_expressionStatement : Sees tokens false slack n expressionStatement := by
  apply sees_nestedExpression.loose.bind
  intro value
  exact (sees_expect _ _).bind fun _ => .pure _

theorem sees_printRule (keyword : Token) : Sees tokens false slack n (printRule keyword) := by
  apply sees_nestedExpression.loose.bind
  intro value
  exact (sees_expect _ _).bind fun _ => .pure _

theorem sees_expressionUnless (kind : TokenKind) :
    Sees tokens false slack n (expressionUnless kind) :=
  sees_test (sees_nextIs kind) (.pure none) (sees_nestedExpression.loose.bind fun _ => .pure _)

theorem sees_returnRule (keyword : Token) : Sees tokens false slack n (returnRule keyword) := by
  apply (sees_expressionUnless _).bind
  intro value
  exact (sees_expect _ _).bind fun _ => .pure _

theorem sees_varRule : Sees tokens false slack n varRule := by
  apply (sees_expect _ _).bind
  intro name
  apply (sees_introducedBy sees_nestedExpression.loose).bind
  intro initializer
  exact (sees_expect _ _).bind fun _ => .pure _

section

variable {stmt : Parser Stmt} {decl : Parser (Option Stmt)}

theorem sees_blockBody (h : Sees tokens false slack n decl) :
    Sees tokens false slack n (blockBody decl) := by
  apply sees_remaining.bind
  intro bound
  apply (sees_itemsUntil sees_atBodyEnd h bound).bind
  intro body
  exact (sees_expect _ _).bind fun _ => .pure _

theorem sees_ifRule (h : Sees tokens false slack n stmt) :
    Sees tokens false slack n (ifRule stmt) := by
  apply (sees_expect _ _).bind
  intro _
  apply sees_nestedExpression.loose.bind
  intro condition
  apply (sees_expect _ _).bind
  intro _
  apply h.bind
  intro thenBranch
  exact (sees_introducedBy h).bind fun elseBranch => .pure _

theorem sees_whileRule (h : Sees tokens false slack n stmt) :
    Sees tokens false slack n (whileRule stmt) := by
  apply (sees_expect _ _).bind
  intro _
  apply sees_nestedExpression.loose.bind
  intro condition
  apply (sees_expect _ _).bind
  intro _
  exact h.bind fun body => .pure _

theorem sees_forInitializer :
    Sees tokens false slack n (select forInitializerRule? (some <$> expressionStatement)) := by
  have whole : Sees tokens false slack (n + 1)
      (select forInitializerRule? (some <$> expressionStatement)) := by
    apply sees_select _ (sees_expressionStatement.map some)
    intro token
    unfold forInitializerRule?
    split <;> rintro _ ⟨⟩
    · exact .pure none
    · exact sees_varRule.map some
  exact whole.mono (Nat.le_succ n)

theorem sees_forRule (h : Sees tokens false slack n stmt) :
    Sees tokens false slack n (forRule stmt) := by
  apply (sees_expect _ _).bind
  intro _
  apply sees_forInitializer.bind
  intro initializer
  apply (sees_expressionUnless _).bind
  intro condition
  apply (sees_expect _ _).bind
  intro _
  apply (sees_expressionUnless _).bind
  intro increment
  apply (sees_expect _ _).bind
  intro _
  exact h.bind fun body => .pure _

theorem sees_anyStatement (hs : Sees tokens false slack n stmt)
    (hd : Sees tokens false slack n decl) :
    Sees tokens false slack (n + 1) (anyStatement stmt decl) := by
  apply sees_select _ sees_expressionStatement
  intro token
  unfold statementRule?
  split <;> rintro _ ⟨⟩
  · exact sees_forRule hs
  · exact sees_ifRule hs
  · exact sees_printRule token
  · exact sees_returnRule token
  · exact sees_whileRule hs
  · exact (sees_blockBody hd).map Stmt.block

theorem sees_routine (kind : Routine) (h : Sees tokens false slack n decl) :
    Sees tokens false slack n (routine kind decl) := by
  have params : ∀ count, Sees tokens false slack n (parameter count) :=
    fun count => (sees_limited (sees_expect _ _) _ count).loose
  apply (sees_expect _ _).bind
  intro name
  apply (sees_expect _ _).bind
  intro _
  apply (sees_itemsBeforeParen params).bind
  intro params
  apply (sees_expect _ _).bind
  intro _
  apply (sees_expect _ _).bind
  intro _
  exact (sees_blockBody h).bind fun body => .pure _

theorem sees_superclassName : Sees tokens false slack n superclassName := by
  apply (sees_expect _ _).bind
  intro name
  exact sees_freshNode.bind fun node => .pure _

theorem sees_classRule (h : Sees tokens false slack n decl) :
    Sees tokens false slack n (classRule decl) := by
  apply (sees_expect _ _).bind
  intro name
  apply (sees_introducedBy sees_superclassName).bind
  intro parent
  apply (sees_expect _ _).bind
  intro _
  apply sees_remaining.bind
  intro bound
  apply (sees_itemsUntil sees_atBodyEnd (sees_routine .method h) bound).bind
  intro methods
  exact (sees_expect _ _).bind fun _ => .pure _

theorem sees_declaring (hs : Sees tokens false slack n stmt)
    (hd : Sees tokens false slack n decl) :
    Sees tokens false slack (n + 1) (declaring stmt decl) := by
  apply sees_select _ (sees_anyStatement hs hd)
  intro token
  unfold declarationRule?
  split <;> rintro _ ⟨⟩
  · exact sees_classRule hd
  · exact (sees_routine .function hd).map Stmt.funDecl
  · exact sees_varRule

end

theorem sees_nested (n : Nat) : Sees tokens false true n nestedStatement ∧
    Sees tokens false true n nestedDeclaration := by
  induction n with
  | zero => exact ⟨.zero _, .zero _⟩
  | succ n ih =>
    obtain ⟨hs, hd⟩ := ih
    constructor
    · rw [nestedStatement_eq]
      exact sees_anyStatement hs hd
    · rw [nestedDeclaration_eq]
      exact sees_recovering (sees_declaring hs hd)

theorem sees_program : Sees tokens false true n program := by
  rw [program_eq]
  apply Sees.map
  exact sees_remaining.bind fun bound => sees_itemsUntil sees_atEnd (sees_nested n).2 bound

/-! ### Positions and lines -/

namespace Sighting

/-- The line that an error is reported on. -/
def line (tokens : List Token) (x : Sighting) : Nat :=
  (x.error.diagnostic (endingOf tokens)).line

/-- The first error stands in the value of an assignment, and the second one is about its
    target. -/
def InValueOf (x y : Sighting) : Prop :=
  y.error.cause = .assignmentTarget ∧ y.position < x.position ∧ x.position ≤ y.noticed

end Sighting

theorem Sighted.found {x : Sighting} (h : Sighted tokens x) :
    ∃ t, (upToEnd tokens)[x.position]? = some t ∧ t.line = x.line tokens := by
  cases h with
  | here found => exact ⟨_, found, rfl⟩
  | target found => exact ⟨_, found, rfl⟩

/-- An error that is noticed no later than another one stands before it or in its value. -/
theorem Sighted.before {x y : Sighting} (hx : Sighted tokens x) (hy : Sighted tokens y)
    (sooner : x.noticed ≤ y.noticed) : x.position ≤ y.position ∨ x.InValueOf y := by
  have inside := Nat.le_trans hx.position_le sooner
  cases hy with
  | here => exact .inl inside
  | @target equals p q =>
    rcases Nat.lt_or_ge p x.position with after | before
    · exact .inr ⟨rfl, after, inside⟩
    · exact .inl before

/-- The token that ends the input is on no earlier line than the others. -/
theorem upToEnd_lines (lines : tokens.Pairwise (·.line ≤ ·.line)) :
    (upToEnd tokens).Pairwise (·.line ≤ ·.line) := by
  rcases upToEnd_cases tokens with firstPart | ⟨endless, added⟩
  · exact lines.sublist firstPart.sublist
  · rw [added]
    refine List.pairwise_append.mpr ⟨lines, List.pairwise_singleton _ _, ?_⟩
    intro t mem ending isEnding
    have none : tokens.find? (·.isEof) = none := by simpa using endless
    have nonempty := List.ne_nil_of_mem mem
    have last : (endingOf tokens).line = (tokens.getLast nonempty).line := by
      rw [endingOf, none, List.getLast?_eq_getLast_of_ne_nil nonempty]
      rfl
    rw [List.mem_singleton.mp isEnding, last]
    exact lines.rel_getLast_of_rel_getLast_getLast mem (Nat.le_refl _)

theorem line_le_of_le {w : List Token} {p q : Nat} (lines : w.Pairwise (·.line ≤ ·.line))
    {t u : Token} (ht : w[p]? = some t) (hu : w[q]? = some u) (forth : p ≤ q) :
    t.line ≤ u.line := by
  rcases Nat.eq_or_lt_of_le forth with rfl | before
  · rw [ht] at hu
    cases hu
    exact Nat.le_refl _
  · obtain ⟨belowp, rfl⟩ := List.getElem?_eq_some_iff.mp ht
    obtain ⟨belowq, rfl⟩ := List.getElem?_eq_some_iff.mp hu
    exact List.pairwise_iff_getElem.mp lines p q belowp belowq before

/-- The errors of a list of tokens, each with a token that it stands at and one at which it is
    noticed, come out in the order in which they are noticed: the same as that of their tokens
    but for errors in the value of an assignment whose target is none. So do their lines, if
    the tokens stand on lines one after another. -/
theorem errors_are_sighted_in_order (fresh : NodeId) (tokens : List Token) :
    ∃ seen : List Sighting, (readProgram fresh tokens).errors = seen.map (·.error) ∧
      (∀ x ∈ seen, Sighted tokens x) ∧ seen.Pairwise (·.noticed ≤ ·.noticed) ∧
      (seen.Pairwise fun x y => x.position ≤ y.position ∨ x.InValueOf y) ∧
      (tokens.Pairwise (·.line ≤ ·.line) →
        seen.Pairwise fun x y => x.line tokens ≤ y.line tokens ∨ x.InValueOf y) := by
  obtain ⟨statements, s, run, _⟩ := program_ends (start fresh tokens)
  have seen := sees_program 0 (start fresh tokens) (cursorAt_start fresh tokens)
    (Nat.le_add_left (upToEnd tokens).length 0)
  rw [run] at seen
  obtain ⟨q, xs, _, _, _, recorded, inOrder⟩ := seen
  have positions : xs.Pairwise fun x y => x.position ≤ y.position ∨ x.InValueOf y :=
    inOrder.ordered.imp_of_mem fun hx hy sooner =>
      (inOrder.sighted _ hx).before (inOrder.sighted _ hy) sooner
  refine ⟨xs, ?_, inOrder.sighted, inOrder.ordered, positions, ?_⟩
  · rw [readProgram, run]
    exact recorded
  · intro lines
    refine positions.imp_of_mem ?_
    intro x y hx hy either
    obtain ⟨t, ht, tline⟩ := (inOrder.sighted _ hx).found
    obtain ⟨u, hu, uline⟩ := (inOrder.sighted _ hy).found
    rw [← tline, ← uline]
    exact either.imp_left (line_le_of_le (upToEnd_lines lines) ht hu)

/-- The theorem at `true = false = nil;` on three lines: the error in the value comes first. -/
theorem errors_are_sighted_in_order_nested :
    let word := fun (k : Keyword) (line : Nat) => (⟨.keyword k, k.spelling, line⟩ : Token)
    let equals := fun line : Nat => (⟨.punctuator .equal, "=", line⟩ : Token)
    let tokens := [word .trueWord 1, equals 1, word .falseWord 2, equals 2, word .nilWord 3,
      ⟨.punctuator .semicolon, ";", 3⟩]
    tokens.Pairwise (·.line ≤ ·.line) ∧
      ∃ x y, (readProgram 0 tokens).errors = [x.error, y.error] ∧
        x.error = ⟨some (equals 2), .assignmentTarget⟩ ∧
        y.error = ⟨some (equals 1), .assignmentTarget⟩ ∧
        Sighted tokens x ∧ Sighted tokens y ∧ x.InValueOf y := by
  intro word equals tokens
  have lines : tokens.Pairwise (·.line ≤ ·.line) := by decide
  have errors : (readProgram 0 tokens).errors =
      [⟨some (equals 2), .assignmentTarget⟩, ⟨some (equals 1), .assignmentTarget⟩] := rfl
  obtain ⟨seen, same, sighted, _, _, inOrder⟩ := errors_are_sighted_in_order 0 tokens
  obtain ⟨x, y, rfl⟩ : ∃ x y, seen = [x, y] := by
    apply List.length_eq_two.mp
    rw [← List.length_map (·.error), ← same, errors]
    rfl
  rw [errors] at same
  obtain ⟨first, second⟩ : _ ∧ _ := by simpa using same
  refine ⟨lines, x, y, ?_, first.symm, second.symm, sighted x (by simp), sighted y (by simp), ?_⟩
  · rw [errors, first, second]
  · -- the lines are 2 and 1
    rcases List.rel_of_pairwise_cons (inOrder lines) (List.mem_singleton_self y) with le | inside
    · rw [Sighting.line, Sighting.line, ← first, ← second] at le
      exact absurd le (by decide)
    · exact inside

/-- The errors of `true = false = nil;` on three lines: the second one is on an earlier line. -/
theorem error_in_value_comes_first :
    let word := fun (k : Keyword) (line : Nat) => (⟨.keyword k, k.spelling, line⟩ : Token)
    let equals := fun line : Nat => (⟨.punctuator .equal, "=", line⟩ : Token)
    let tokens := [word .trueWord 1, equals 1, word .falseWord 2, equals 2, word .nilWord 3,
      ⟨.punctuator .semicolon, ";", 3⟩]
    tokens.Pairwise (·.line ≤ ·.line) ∧
      (readProgram 0 tokens).diagnostics.map (·.line) = [2, 1] := by
  intro word equals tokens
  exact ⟨by decide, rfl⟩

end Lox.Grammar
