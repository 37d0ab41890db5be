import Lox.Proofs.Grammar.Cursor
import Lox.Proofs.Grammar.Lines

/-! # One text after another

  Declarations that are read without errors end where they end, whatever comes next, unless
  it is an `else`. So in front of any tokens they are read as they are alone, and what comes
  next is read as it is alone, errors and all (`reading_splits_at_declarations`).

  The two readings of what comes next start with different identities for their nodes, and
  may recover from errors on the way. `Parallel` says of two parsers that, whichever identity
  comes first, they take the same tokens, record the same errors and yield the same tree but
  for the identities. It has one lemma for every rule of the grammar.
-/

namespace Lox

theorem Expr.bareAll_eq_map (es : List Expr) : Expr.bareAll es = es.map Expr.bare := by
  induction es with
  | nil => rfl
  | cons e rest ih => rw [bareAll, List.map_cons, ih]

theorem Stmt.bareAll_eq_map (ss : List Stmt) : Stmt.bareAll ss = ss.map Stmt.bare := by
  induction ss with
  | nil => rfl
  | cons s rest ih => rw [bareAll, List.map_cons, ih]

theorem Stmt.bareElse_eq_map (o : Option Stmt) : Stmt.bareElse o = o.map Stmt.bare := by
  cases o <;> rfl

theorem FunctionDecl.bareAll_eq_map (fs : List FunctionDecl) :
    FunctionDecl.bareAll fs = fs.map FunctionDecl.bare := by
  induction fs with
  | nil => rfl
  | cons f rest ih => rw [bareAll, List.map_cons, ih]

/-- Statements that are left out on both sides leave the same ones. -/
theorem Stmt.bareAll_filterMap {os os' : List (Option Stmt)}
    (same : os.map (Option.map Stmt.bare) = os'.map (Option.map Stmt.bare)) :
    Stmt.bareAll (os.filterMap id) = Stmt.bareAll (os'.filterMap id) := by
  have kept : ∀ os : List (Option Stmt), Stmt.bareAll (os.filterMap id) =
      (os.map (Option.map Stmt.bare)).filterMap id := by
    intro os
    rw [Stmt.bareAll_eq_map, List.map_filterMap, List.filterMap_map]
    rfl
  rw [kept, kept, same]

end Lox

namespace Lox.Grammar

variable {α β γ δ : Type}

/-! ### The judgement -/

/-- Two results that differ in identities at most: values that look the same, or the same
    error. -/
inductive Matching (look : α → γ) :
    EStateM.Result SyntaxError State α → EStateM.Result SyntaxError State α → Prop where
  | ok {a b : α} {s : State} (fresh : NodeId) (same : look a = look b) :
      Matching look (.ok a s) (.ok b { s with fresh })
  | error {e : SyntaxError} {s : State} (fresh : NodeId) :
      Matching look (.error e s) (.error e { s with fresh })

/-- Two parsers that come to the same from states that differ in the next identity. -/
def Parallel (look : α → γ) (p q : Parser α) : Prop :=
  ∀ s fresh, Matching look (p s) (q { s with fresh })

namespace Parallel

variable {look : α → γ} {view : β → δ} {p q : Parser α} {f g : α → Parser β}

theorem pure {a b : α} (same : look a = look b) : Parallel look (pure a) (pure b) :=
  fun _ fresh => .ok fresh same

theorem reject (cause : Cause) :
    Parallel look (reject cause : Parser α) (Grammar.reject cause) :=
  fun _ fresh => .error fresh

theorem bind (first : Parallel look p q)
    (second : ∀ a b, look a = look b → Parallel view (f a) (g b)) :
    Parallel view (p >>= f) (q >>= g) := by
  intro s fresh
  have both := first s fresh
  cases run : p s with
  | error e s' =>
    cases run' : q { s with fresh } with
    | ok b s'' =>
      rw [run, run'] at both
      cases both
    | error e' s'' =>
      rw [run, run'] at both
      rw [bind_of_error run, bind_of_error run']
      cases both with
      | error fresh' => exact .error fresh'
  | ok a s' =>
    cases run' : q { s with fresh } with
    | error e' s'' =>
      rw [run, run'] at both
      cases both
    | ok b s'' =>
      rw [run, run'] at both
      rw [bind_of_ok run, bind_of_ok run']
      cases both with
      | ok fresh' same => exact second a b same s' fresh'

/-- What is chosen or found the same on both sides. -/
theorem bind_same {p q : Parser α} (first : Parallel id p q)
    (second : ∀ a, Parallel view (f a) (g a)) : Parallel view (p >>= f) (q >>= g) := by
  apply first.bind
  rintro a b rfl
  exact second a

theorem map (h : Parallel look p q) {k : α → β}
    (same : ∀ a b, look a = look b → view (k a) = view (k b)) :
    Parallel view (k <$> p) (k <$> q) := by
  rw [map_eq_bind, map_eq_bind]
  exact h.bind fun a b eq => .pure (same a b eq)

theorem some (h : Parallel look p q) :
    Parallel (Option.map look) (Option.some <$> p) (Option.some <$> q) :=
  h.map fun _ _ same => congrArg Option.some same

end Parallel

/-! ### The basic parsers -/

theorem parallel_remaining : Parallel id remaining remaining :=
  fun _ fresh => .ok fresh rfl

theorem parallel_nextIs (kind : TokenKind) : Parallel id (nextIs kind) (nextIs kind) :=
  fun _ fresh => .ok fresh rfl

theorem parallel_atEnd : Parallel id atEnd atEnd :=
  fun _ fresh => .ok fresh rfl

theorem parallel_atBodyEnd : Parallel id atBodyEnd atBodyEnd :=
  fun _ fresh => .ok fresh rfl

theorem parallel_record (error : SyntaxError) : Parallel id (record error) (record error) :=
  fun _ fresh => .ok fresh rfl

theorem parallel_recordHere (cause : Cause) :
    Parallel id (recordHere cause) (recordHere cause) :=
  fun _ fresh => .ok fresh rfl

/-- The one parser that yields identities. -/
theorem parallel_freshNode : Parallel (fun _ => ()) freshNode freshNode :=
  fun _ fresh => .ok (fresh + 1) rfl

theorem parallel_select {look : α → γ} {rule? rule?' : Token → Option (Parser α)}
    {otherwise otherwise' : Parser α}
    (chosen : ∀ token, Option.Rel (Parallel look) (rule? token) (rule?' token))
    (other : Parallel look otherwise otherwise') :
    Parallel look (select rule? otherwise) (select rule?' otherwise') := by
  rintro ⟨tokens, recorded, node⟩ fresh
  cases tokens with
  | nil => exact other ⟨[], recorded, node⟩ fresh
  | cons token rest =>
    have both := chosen token
    simp only [select]
    generalize rule? token = found at both
    generalize rule?' token = found' at both
    cases both with
    | none => exact other ⟨token :: rest, recorded, node⟩ fresh
    | some h => exact h ⟨rest, recorded, node⟩ fresh

/-- A choice by a test on the token. -/
theorem parallel_selectIf {look : α → γ} {test : Token → Prop} [DecidablePred test]
    {f f' : Token → Parser α} {otherwise otherwise' : Parser α}
    (chosen : ∀ token, Parallel look (f token) (f' token))
    (other : Parallel look otherwise otherwise') :
    Parallel look (select (fun token => if test token then some (f token) else none) otherwise)
      (select (fun token => if test token then some (f' token) else none) otherwise') := by
  apply parallel_select _ other
  intro token
  by_cases fits : test token
  · simp only [fits, if_true]
    exact .some (chosen token)
  · simp only [fits, if_false]
    exact .none

theorem parallel_accept? (kind : TokenKind) : Parallel id (accept? kind) (accept? kind) :=
  parallel_selectIf (fun _ => .pure rfl) (.pure rfl)

theorem parallel_expect (kind : TokenKind) (cause : Cause) :
    Parallel id (expect kind cause) (expect kind cause) :=
  parallel_selectIf (fun _ => .pure rfl) (.reject cause)

/-- A parser that first looks whether to go on. -/
theorem parallel_test {look : α → γ} {test : Parser Bool} {yes yes' no no' : Parser α}
    (found : Parallel id test test) (hyes : Parallel look yes yes')
    (hno : Parallel look no no') :
    Parallel look (do if ← test then yes else no) (do if ← test then yes' else no') := by
  apply found.bind_same
  intro answer
  cases answer with
  | true => exact hyes
  | false => exact hno

theorem parallel_introducedBy {look : α → γ} {kind : TokenKind} {p q : Parser α}
    (h : Parallel look p q) :
    Parallel (Option.map look) (introducedBy kind p) (introducedBy kind q) := by
  apply (parallel_accept? kind).bind_same
  intro found
  cases found with
  | none => exact .pure rfl
  | some token => exact h.some

theorem parallel_limited {look : α → γ} {p q : Parser α} (h : Parallel look p q)
    (cause : Cause) (count : Nat) :
    Parallel look (do
      if maxArity ≤ count then
        recordHere cause
      p) (do
      if maxArity ≤ count then
        recordHere cause
      q) := by
  by_cases many : maxArity ≤ count
  · simp only [if_pos many]
    exact (parallel_recordHere cause).bind_same fun _ => h
  · simp only [if_neg many]
    exact h

/-! ### Repetitions -/

/-- One item and the ones after it. -/
theorem parallel_cons {look : α → γ} {p q : Parser α} {ps qs : Parser (List α)}
    (first : Parallel look p q) (others : Parallel (List.map look) ps qs) :
    Parallel (List.map look) (do return (← p) :: (← ps)) (do return (← q) :: (← qs)) := by
  apply first.bind
  intro a b same
  apply others.bind
  intro as bs same'
  exact .pure (by rw [List.map_cons, List.map_cons, same, same'])

section

variable {look : α → γ} {item item' : Nat → Parser α}

theorem parallel_moreItems (h : ∀ count, Parallel look (item count) (item' count))
    (bound count : Nat) :
    Parallel (List.map look) (moreItems item bound count) (moreItems item' bound count) := by
  induction bound generalizing count with
  | zero => exact .pure rfl
  | succ bound ih =>
    apply (parallel_accept? _).bind_same
    intro found
    cases found with
    | none => exact .pure rfl
    | some comma => exact parallel_cons (h count) (ih (count + 1))

theorem parallel_itemsBeforeParen (h : ∀ count, Parallel look (item count) (item' count)) :
    Parallel (List.map look) (itemsBeforeParen item) (itemsBeforeParen item') := by
  apply parallel_test (parallel_nextIs _) (.pure rfl)
  apply (h 0).bind
  intro a b same
  apply parallel_remaining.bind_same
  intro bound
  apply (parallel_moreItems h bound 1).bind
  intro as bs same'
  exact .pure (by rw [List.map_cons, List.map_cons, same, same'])

end

theorem parallel_itemsUntil {look : α → γ} {stop : Parser Bool} {item item' : Parser α}
    (stops : Parallel id stop stop) (h : Parallel look item item') (bound : Nat) :
    Parallel (List.map look) (itemsUntil stop item bound) (itemsUntil stop item' bound) := by
  induction bound with
  | zero => exact .pure rfl
  | succ bound ih => exact parallel_test stops (.pure rfl) (parallel_cons h ih)

/-! ### Expressions -/

section

variable {e e' : Parser Expr}

theorem parallel_superRule (keyword : Token) :
    Parallel Expr.bare (superRule keyword) (superRule keyword) := by
  apply (parallel_expect _ _).bind_same
  intro _
  apply (parallel_expect _ _).bind_same
  intro method
  exact parallel_freshNode.bind fun _ _ _ => .pure rfl

theorem parallel_groupingRule (h : Parallel Expr.bare e e') :
    Parallel Expr.bare (groupingRule e) (groupingRule e') := by
  apply h.bind
  intro inner inner' same
  apply (parallel_expect _ _).bind_same
  intro _
  exact .pure (by rw [Expr.bare, Expr.bare, same])

theorem parallel_primary (h : Parallel Expr.bare e e') :
    Parallel Expr.bare (primary e) (primary e') := by
  apply parallel_select _ (.reject _)
  intro token
  unfold primaryRule?
  split
  · exact .some (.pure rfl)
  · exact .some (.pure rfl)
  · exact .some (.pure rfl)
  · exact .some (.pure rfl)
  · exact .some (.pure rfl)
  · exact .some (parallel_superRule token)
  · exact .some (parallel_freshNode.bind fun _ _ _ => .pure rfl)
  · exact .some (parallel_freshNode.bind fun _ _ _ => .pure rfl)
  · exact .some (parallel_groupingRule h)
  · exact .none

theorem parallel_callRule (h : Parallel Expr.bare e e') {callee callee' : Expr}
    (same : callee.bare = callee'.bare) :
    Parallel Expr.bare (callRule e callee) (callRule e' callee') := by
  have arguments : ∀ count, Parallel Expr.bare (argument e count) (argument e' count) :=
    parallel_limited h _
  apply (parallel_itemsBeforeParen arguments).bind
  intro values values' sameValues
  apply (parallel_expect _ _).bind_same
  intro paren
  refine .pure ?_
  rw [Expr.bare, Expr.bare, same, Expr.bareAll_eq_map, Expr.bareAll_eq_map, sameValues]

theorem parallel_propertyRule {object object' : Expr} (same : object.bare = object'.bare) :
    Parallel Expr.bare (propertyRule object) (propertyRule object') := by
  apply (parallel_expect _ _).bind_same
  intro name
  exact .pure (by rw [Expr.bare, Expr.bare, same])

theorem parallel_suffixes (h : Parallel Expr.bare e e') (bound : Nat) {x x' : Expr}
    (same : x.bare = x'.bare) :
    Parallel Expr.bare (suffixes e bound x) (suffixes e' bound x') := by
  induction bound generalizing x x' with
  | zero => exact .pure same
  | succ bound ih =>
    apply parallel_select _ (.pure same)
    intro token
    unfold suffixRule?
    split
    · exact .some ((parallel_callRule h same).bind fun _ _ => ih)
    · exact .some ((parallel_propertyRule same).bind fun _ _ => ih)
    · exact .none

theorem parallel_call (h : Parallel Expr.bare e e') :
    Parallel Expr.bare (call e) (call e') := by
  apply (parallel_primary h).bind
  intro x x' same
  exact parallel_remaining.bind_same fun bound => parallel_suffixes h bound same

theorem parallel_unary (h : Parallel Expr.bare e e') (bound : Nat) :
    Parallel Expr.bare (unary e bound) (unary e' bound) := by
  induction bound with
  | zero => exact parallel_call h
  | succ bound ih =>
    apply parallel_selectIf _ (parallel_call h)
    intro token
    apply ih.bind
    intro right right' same
    exact .pure (by rw [Expr.bare, Expr.bare, same])

/-- The nodes of a level look the same when their operands do. -/
def Level.Plain (level : Level) : Prop :=
  ∀ (token : Token) (left left' right right' : Expr), left.bare = left'.bare →
    right.bare = right'.bare →
    (level.node left token right).bare = (level.node left' token right').bare

theorem plain_of_mem_levels {level : Level} (mem : level ∈ levels) : level.Plain := by
  have logical : ∀ operators, (⟨operators, .logical⟩ : Level).Plain := by
    intro operators token left left' right right' hl hr
    simp only [Expr.bare, hl, hr]
  have binary : ∀ operators, (⟨operators, .binary⟩ : Level).Plain := by
    intro operators token left left' right right' hl hr
    simp only [Expr.bare, hl, hr]
  simp only [levels, List.mem_cons, List.not_mem_nil, or_false] at mem
  rcases mem with rfl | rfl | rfl | rfl | rfl | rfl
  · exact logical _
  · exact logical _
  · exact binary _
  · exact binary _
  · exact binary _
  · exact binary _

theorem parallel_chain {level : Level} (plain : level.Plain) (h : Parallel Expr.bare e e')
    (bound : Nat) {left left' : Expr} (same : left.bare = left'.bare) :
    Parallel Expr.bare (level.chain e bound left) (level.chain e' bound left') := by
  induction bound generalizing left left' with
  | zero => exact .pure same
  | succ bound ih =>
    apply parallel_selectIf _ (.pure same)
    intro token
    apply h.bind
    intro right right' same'
    exact ih (plain token _ _ _ _ same same')

theorem parallel_operation (h : Parallel Expr.bare e e') : ∀ levels : List Level,
    (∀ level ∈ levels, level.Plain) →
    Parallel Expr.bare (operation e levels) (operation e' levels)
  | [], _ => parallel_remaining.bind_same fun bound => parallel_unary h bound
  | level :: tighter, plain => by
    have operand := parallel_operation h tighter fun l mem => plain l (List.mem_cons_of_mem _ mem)
    apply operand.bind
    intro first first' same
    apply parallel_remaining.bind_same
    intro bound
    exact parallel_chain (plain level (List.mem_cons_self ..)) operand bound same

/-- Whether a target can be assigned to does not depend on identities. -/
theorem parallel_assignTo {target target' value value' : Expr} (equals : Token)
    (same : target.bare = target'.bare) (sameValue : value.bare = value'.bare) :
    Parallel Expr.bare (assignTo target equals value) (assignTo target' equals value') := by
  have refused : Parallel Expr.bare (do record ⟨some equals, .assignmentTarget⟩; return target)
      (do record ⟨some equals, .assignmentTarget⟩; return target') :=
    (parallel_record _).bind_same fun _ => .pure same
  cases target with
  | var node name =>
    cases target' <;> simp only [Expr.bare, reduceCtorEq] at same
    obtain ⟨_, rfl⟩ := Expr.var.inj same
    apply parallel_freshNode.bind
    intro _ _ _
    exact .pure (by rw [Expr.bare, Expr.bare, sameValue])
  | get object name =>
    cases target' <;> simp only [Expr.bare, reduceCtorEq] at same
    obtain ⟨sameObject, rfl⟩ := Expr.get.inj same
    exact .pure (by rw [Expr.bare, Expr.bare, sameObject, sameValue])
  | literal | grouping | unary | binary | logical | assign | call | set | thisRef | superRef =>
    cases target' <;> simp only [Expr.bare, reduceCtorEq] at same
    exact refused

theorem parallel_assignment (h : Parallel Expr.bare e e') :
    Parallel Expr.bare (assignment e) (assignment e') := by
  apply (parallel_operation h levels fun _ => plain_of_mem_levels).bind
  intro target target' same
  apply (parallel_accept? _).bind_same
  intro found
  cases found with
  | none => exact .pure same
  | some equals => exact h.bind fun _ _ sameValue => parallel_assignTo equals same sameValue

end

theorem parallel_expression (depth : Nat) :
    Parallel Expr.bare (expression depth) (expression depth) := by
  induction depth with
  | zero => exact .reject _
  | succ depth ih => exact parallel_assignment ih

theorem parallel_nestedExpression : Parallel Expr.bare nestedExpression nestedExpression :=
  parallel_remaining.bind_same parallel_expression

/-! ### Statements and declarations -/

theorem parallel_expressionStatement :
    Parallel Stmt.bare expressionStatement expressionStatement := by
  apply parallel_nestedExpression.bind
  intro value value' same
  apply (parallel_expect _ _).bind_same
  intro _
  exact .pure (by rw [Stmt.bare, Stmt.bare, same])

theorem parallel_printRule (keyword : Token) :
    Parallel Stmt.bare (printRule keyword) (printRule keyword) := by
  apply parallel_nestedExpression.bind
  intro value value' same
  apply (parallel_expect _ _).bind_same
  intro _
  exact .pure (by rw [Stmt.bare, Stmt.bare, same])

theorem parallel_expressionUnless (kind : TokenKind) :
    Parallel (Option.map Expr.bare) (expressionUnless kind) (expressionUnless kind) := by
  apply parallel_test (parallel_nextIs kind) (.pure rfl)
  exact parallel_nestedExpression.bind fun _ _ same => .pure (congrArg some same)

theorem parallel_returnRule (keyword : Token) :
    Parallel Stmt.bare (returnRule keyword) (returnRule keyword) := by
  apply (parallel_expressionUnless _).bind
  intro value value' same
  apply (parallel_expect _ _).bind_same
  intro _
  exact .pure (by rw [Stmt.bare, Stmt.bare, same])

theorem parallel_varRule : Parallel Stmt.bare varRule varRule := by
  apply (parallel_expect _ _).bind_same
  intro name
  apply (parallel_introducedBy parallel_nestedExpression).bind
  intro value value' same
  apply (parallel_expect _ _).bind_same
  intro _
  exact .pure (by rw [Stmt.bare, Stmt.bare, same])

section

variable {stmt stmt' : Parser Stmt} {decl decl' : Parser (Option Stmt)}

theorem parallel_blockBody (h : Parallel (Option.map Stmt.bare) decl decl') :
    Parallel Stmt.bareAll (blockBody decl) (blockBody decl') := by
  apply parallel_remaining.bind_same
  intro bound
  apply (parallel_itemsUntil parallel_atBodyEnd h bound).bind
  intro body body' same
  apply (parallel_expect _ _).bind_same
  intro _
  exact .pure (Stmt.bareAll_filterMap same)

theorem parallel_ifRule (h : Parallel Stmt.bare stmt stmt') :
    Parallel Stmt.bare (ifRule stmt) (ifRule stmt') := by
  apply (parallel_expect _ _).bind_same
  intro _
  apply parallel_nestedExpression.bind
  intro condition condition' same
  apply (parallel_expect _ _).bind_same
  intro _
  apply h.bind
  intro thenBranch thenBranch' sameThen
  apply (parallel_introducedBy h).bind
  intro elseBranch elseBranch' sameElse
  refine .pure ?_
  rw [Stmt.bare, Stmt.bare, same, sameThen, Stmt.bareElse_eq_map, Stmt.bareElse_eq_map, sameElse]

theorem parallel_whileRule (h : Parallel Stmt.bare stmt stmt') :
    Parallel Stmt.bare (whileRule stmt) (whileRule stmt') := by
  apply (parallel_expect _ _).bind_same
  intro _
  apply parallel_nestedExpression.bind
  intro condition condition' same
  apply (parallel_expect _ _).bind_same
  intro _
  apply h.bind
  intro body body' sameBody
  exact .pure (by rw [Stmt.bare, Stmt.bare, same, sameBody])

theorem parallel_forInitializer :
    Parallel (Option.map Stmt.bare)
      (select forInitializerRule? (some <$> expressionStatement))
      (select forInitializerRule? (some <$> expressionStatement)) := by
  apply parallel_select _ parallel_expressionStatement.some
  intro token
  unfold forInitializerRule?
  split
  · exact .some (.pure rfl)
  · exact .some parallel_varRule.some
  · exact .none

theorem parallel_forRule (h : Parallel Stmt.bare stmt stmt') :
    Parallel Stmt.bare (forRule stmt) (forRule stmt') := by
  apply (parallel_expect _ _).bind_same
  intro _
  apply parallel_forInitializer.bind
  intro initializer initializer' sameInitializer
  apply (parallel_expressionUnless _).bind
  intro condition condition' sameCondition
  apply (parallel_expect _ _).bind_same
  intro _
  apply (parallel_expressionUnless _).bind
  intro increment increment' sameIncrement
  apply (parallel_expect _ _).bind_same
  intro _
  apply h.bind
  intro body body' sameBody
  refine .pure ?_
  rw [forLoop_eq, forLoop_eq, bare_forTree, bare_forTree, sameInitializer, sameCondition,
    sameIncrement, sameBody]

theorem parallel_anyStatement (hs : Parallel Stmt.bare stmt stmt')
    (hd : Parallel (Option.map Stmt.bare) decl decl') :
    Parallel Stmt.bare (anyStatement stmt decl) (anyStatement stmt' decl') := by
  apply parallel_select _ parallel_expressionStatement
  intro token
  unfold statementRule?
  split
  · exact .some (parallel_forRule hs)
  · exact .some (parallel_ifRule hs)
  · exact .some (parallel_printRule token)
  · exact .some (parallel_returnRule token)
  · exact .some (parallel_whileRule hs)
  · exact .some ((parallel_blockBody hd).map fun _ _ same => congrArg Stmt.block same)
  · exact .none

theorem parallel_routine (kind : Routine) (h : Parallel (Option.map Stmt.bare) decl decl') :
    Parallel FunctionDecl.bare (routine kind decl) (routine kind decl') := by
  have parameters : ∀ count, Parallel id (parameter count) (parameter count) :=
    parallel_limited (parallel_expect _ _) _
  apply (parallel_expect _ _).bind_same
  intro name
  apply (parallel_expect _ _).bind_same
  intro _
  apply (parallel_itemsBeforeParen parameters).bind
  intro params params' sameParams
  rw [List.map_id, List.map_id] at sameParams
  subst sameParams
  apply (parallel_expect _ _).bind_same
  intro _
  apply (parallel_expect _ _).bind_same
  intro _
  apply (parallel_blockBody h).bind
  intro body body' same
  exact .pure (by rw [FunctionDecl.bare, FunctionDecl.bare, same])

theorem parallel_superclassName : Parallel Expr.bare superclassName superclassName := by
  apply (parallel_expect _ _).bind_same
  intro name
  exact parallel_freshNode.bind fun _ _ _ => .pure rfl

theorem parallel_classRule (h : Parallel (Option.map Stmt.bare) decl decl') :
    Parallel Stmt.bare (classRule decl) (classRule decl') := by
  apply (parallel_expect _ _).bind_same
  intro name
  apply (parallel_introducedBy parallel_superclassName).bind
  intro parent parent' sameParent
  apply (parallel_expect _ _).bind_same
  intro _
  apply parallel_remaining.bind_same
  intro bound
  apply (parallel_itemsUntil parallel_atBodyEnd (parallel_routine .method h) bound).bind
  intro methods methods' same
  apply (parallel_expect _ _).bind_same
  intro _
  refine .pure ?_
  rw [Stmt.bare, Stmt.bare, sameParent, FunctionDecl.bareAll_eq_map,
    FunctionDecl.bareAll_eq_map, same]

theorem parallel_declaring (hs : Parallel Stmt.bare stmt stmt')
    (hd : Parallel (Option.map Stmt.bare) decl decl') :
    Parallel Stmt.bare (declaring stmt decl) (declaring stmt' decl') := by
  apply parallel_select _ (parallel_anyStatement hs hd)
  intro token
  unfold declarationRule?
  split
  · exact .some (parallel_classRule hd)
  · exact .some ((parallel_routine .function hd).map fun _ _ same => congrArg Stmt.funDecl same)
  · exact .some parallel_varRule
  · exact .none

end

/-- The same error is recovered from at the same token. -/
theorem parallel_recovering {look : α → γ} {p q : Parser α} (h : Parallel look p q) :
    Parallel (Option.map look) (recovering p) (recovering q) := by
  intro s fresh
  have both := h s fresh
  cases run : p s with
  | ok a s' =>
    cases run' : q { s with fresh } with
    | error e' s'' =>
      rw [run, run'] at both
      cases both
    | ok b s'' =>
      rw [run, run'] at both
      rw [recovering_ok run, recovering_ok run']
      cases both with
      | ok fresh' same => exact .ok fresh' (congrArg some same)
  | error e s' =>
    cases run' : q { s with fresh } with
    | ok b s'' =>
      rw [run, run'] at both
      cases both
    | error e' s'' =>
      rw [run, run'] at both
      rw [recovering_error run, recovering_error run']
      cases both with
      | error fresh' => exact .ok fresh' rfl

theorem parallel_statement_declaration (depth : Nat) :
    Parallel Stmt.bare (statement depth) (statement depth) ∧
      Parallel (Option.map Stmt.bare) (declaration depth) (declaration depth) := by
  induction depth with
  | zero =>
    rw [statement, declaration]
    exact ⟨.reject _, parallel_recovering (.reject _)⟩
  | succ depth ih =>
    obtain ⟨hs, hd⟩ := ih
    rw [statement, declaration_succ]
    exact ⟨parallel_anyStatement hs hd, parallel_recovering (parallel_declaring hs hd)⟩

theorem parallel_program : Parallel Stmt.bareAll program program := by
  apply parallel_remaining.bind_same
  intro bound
  have items := parallel_itemsUntil parallel_atEnd (parallel_statement_declaration bound).2 bound
  apply items.bind
  intro os os' same
  exact .pure (Stmt.bareAll_filterMap same)

/-! ### Declarations in front of other tokens -/

theorem Phrase.Spells.noElse_append {ss : List Stmt} {v rest : List Token}
    (h : (Phrase.declarations ss).Spells v) (noElse : NoElse rest) : NoElse (v ++ rest) := by
  cases h with
  | noDeclarations => exact noElse
  | declarations first _ =>
    obtain ⟨t, v', rfl, ht⟩ := first.starts_declaration
    exact noElse_cons ht _

theorem Phrase.Spells.length_le {ss : List Stmt} {w : List Token}
    (h : (Phrase.declarations ss).Spells w) : ss.length ≤ w.length := by
  induction ss generalizing w with
  | nil => exact Nat.zero_le _
  | cons s rest ih =>
    cases h with
    | @declarations u v _ _ _ first later =>
      obtain ⟨t, u', rfl, _⟩ := first.starts_declaration
      have := ih later
      simp only [List.length_cons, List.length_append]
      omega

/-- A sequence up to the end first takes the declarations in front, and goes on with what
    comes after them as if nothing had been there. -/
theorem Phrase.Spells.itemsUntil_append {ss : List Stmt} {w rest : List Token}
    (h : (Phrase.declarations ss).Spells w) (noElse : NoElse rest) {depth : Nat}
    (deep : w.length ≤ depth) (bound : Nat) (recorded : List SyntaxError) (fresh : NodeId) :
    ∃ os fresh', Stmt.bareAll (os.filterMap id) = Stmt.bareAll ss ∧
      ∀ others s', itemsUntil atEnd (Grammar.declaration depth) bound
          ⟨rest, recorded, fresh'⟩ = .ok others s' →
        itemsUntil atEnd (Grammar.declaration depth) (ss.length + bound)
          ⟨w ++ rest, recorded, fresh⟩ = .ok (os ++ others) s' := by
  -- on the statements: once the first one is read, the reading goes on behind it
  induction ss generalizing w fresh with
  | nil =>
    cases h with
    | noDeclarations =>
      refine ⟨[], fresh, rfl, fun others s' run => ?_⟩
      rw [List.length_nil, Nat.zero_add]
      exact run
  | cons s ss ih =>
    cases h with
    | @declarations u v _ _ d first later =>
      rw [List.length_append] at deep
      have noElse' := later.noElse_append noElse
      obtain ⟨o, fresh₁, read, s', rfl, sameFirst⟩ :=
        first.isRead depth (v ++ rest) (by omega) (fun _ => noElse') recorded fresh
      obtain ⟨os, fresh', same, goesOn⟩ := ih later (by omega) fresh₁
      refine ⟨some s' :: os, fresh', ?_, fun others s'' run => ?_⟩
      · rw [List.filterMap_cons_some (f := id) rfl, Stmt.bareAll, Stmt.bareAll, sameFirst, same]
      · obtain ⟨t, u', rfl, _⟩ := first.starts_declaration
        have goes : atEnd ⟨t :: u' ++ (v ++ rest), recorded, fresh⟩ =
          .ok false ⟨t :: u' ++ (v ++ rest), recorded, fresh⟩ := rfl
        rw [List.append_assoc, List.length_cons, Nat.add_right_comm, itemsUntil_item goes,
          bind_of_ok read, bind_of_ok (goesOn others s'' run)]
        rfl

/-- A program that starts with declarations is those and then the program that the other
    tokens are alone. -/
theorem Phrase.Spells.program_append {ss : List Stmt} {w rest : List Token}
    (h : (Phrase.declarations ss).Spells w) (noElse : NoElse rest)
    (recorded : List SyntaxError) (fresh : NodeId) :
    ∃ first fresh', Stmt.bareAll first = Stmt.bareAll ss ∧
      ∀ others s', program ⟨rest, recorded, fresh'⟩ = .ok others s' →
        program ⟨w ++ rest, recorded, fresh⟩ = .ok (first ++ others) s' := by
  have short := h.length_le
  obtain ⟨spare, size⟩ : ∃ spare, (w ++ rest).length = ss.length + spare ∧
      rest.length ≤ spare := by
    rw [List.length_append]
    exact ⟨w.length + rest.length - ss.length, by omega, by omega⟩
  have deep : w.length ≤ (w ++ rest).length := by
    rw [List.length_append]
    omega
  obtain ⟨os, fresh', same, goesOn⟩ := h.itemsUntil_append noElse deep spare recorded fresh
  refine ⟨os.filterMap id, fresh', same, fun others s' run => ?_⟩
  obtain ⟨items, s'', read, final⟩ := bind_eq_ok
    (p := itemsUntil atEnd (Grammar.declaration rest.length) rest.length) run
  cases final
  -- more depth and a larger bound make no difference to the reading of the other tokens
  have alone : Alike false (rest.length + 1)
      (itemsUntil atEnd (Grammar.declaration (w ++ rest).length) spare)
      (itemsUntil atEnd (Grammar.declaration rest.length) rest.length) := by
    apply alike_itemsUntil halts_atEnd
    · apply (alike_statement_declaration _ _).2 <;> omega
    · omega
    · omega
  have found := (alone ⟨rest, recorded, fresh'⟩ (Nat.lt_succ_self _)).1.trans read
  have whole := goesOn items s' found
  rw [← size.1] at whole
  rw [← List.filterMap_append]
  exact bind_of_ok
    (p := itemsUntil atEnd (Grammar.declaration (w ++ rest).length) (w ++ rest).length) whole

/-! ### Programs -/

theorem bodyOf_eq_self {tokens : List Token} (endless : ∀ t ∈ tokens, t.isEof = false) :
    bodyOf tokens = tokens := by
  apply List.takeWhile_eq_self_iff.mpr
  intro t mem
  rw [endless t mem]
  rfl

theorem bodyOf_append_of_endless {A : List Token} (endless : ∀ t ∈ A, t.isEof = false)
    (B : List Token) : bodyOf (A ++ B) = A ++ bodyOf B := by
  apply List.takeWhile_append_of_pos
  intro t mem
  rw [endless t mem]
  rfl

/-- What ends the tokens that come last ends the whole. -/
theorem endingOf_append {A B : List Token} (endless : ∀ t ∈ A, t.isEof = false)
    (more : B ≠ []) : endingOf (A ++ B) = endingOf B := by
  have none : A.find? (·.isEof) = none := by
    rw [List.find?_eq_none]
    intro t mem
    rw [endless t mem]
    exact Bool.false_ne_true
  have last : (A ++ B).getLast? = B.getLast? := by
    rw [List.getLast?_append, List.getLast?_eq_getLast_of_ne_nil more]
    rfl
  unfold endingOf
  rw [List.find?_append, none, last]
  rfl

theorem NoElse.bodyOf {tokens : List Token} (h : NoElse tokens) :
    NoElse (Grammar.bodyOf tokens) := by
  intro t front
  apply h t
  cases tokens with
  | nil => exact front
  | cons first rest =>
    rw [Grammar.bodyOf, List.takeWhile_cons] at front
    split at front
    · exact front
    · cases front

theorem ending_readProgram (fresh : NodeId) (tokens : List Token) :
    (readProgram fresh tokens).ending = endingOf tokens := by
  unfold readProgram
  split <;> rfl

/-- Whichever identity comes first, the same errors are found and the same statements read
    in spite of them. -/
theorem readProgram_parallel (fresh fresh' : NodeId) (tokens : List Token) :
    Stmt.bareAll (readProgram fresh tokens).value =
        Stmt.bareAll (readProgram fresh' tokens).value ∧
      (readProgram fresh tokens).errors = (readProgram fresh' tokens).errors := by
  have both : Matching Stmt.bareAll (program (start fresh tokens))
      (program (start fresh' tokens)) := parallel_program (start fresh tokens) fresh'
  unfold readProgram
  generalize program (start fresh tokens) = result at both
  generalize program (start fresh' tokens) = result' at both
  cases both with
  | ok _ same => exact ⟨same, rfl⟩
  | error _ => exact ⟨rfl, rfl⟩

/-- In front of other tokens, the declarations of a program without errors are read first, and
    then the others as they are alone. -/
theorem readProgram_append_any (fresh fresh₁ : NodeId) {A B : List Token}
    (endless : ∀ t ∈ A, t.isEof = false) (quiet : (readProgram fresh₁ A).errors = [])
    (noElse : NoElse B) :
    ∃ fresh', Stmt.bareAll (readProgram fresh (A ++ B)).value =
        Stmt.bareAll ((readProgram fresh₁ A).value ++ (readProgram fresh' B).value) ∧
      (readProgram fresh (A ++ B)).errors = (readProgram fresh' B).errors := by
  obtain ⟨tree, spells, sameA⟩ := spells_of_readProgram quiet
  rw [bodyOf_eq_self endless] at spells
  obtain ⟨first, fresh', same, goesOn⟩ := spells.program_append noElse.bodyOf [] fresh
  obtain ⟨statements, s, alone, _⟩ := program_ends (start fresh' B)
  have whole : program (start fresh (A ++ B)) = .ok (first ++ statements) s := by
    rw [start, bodyOf_append_of_endless endless]
    exact goesOn statements s alone
  refine ⟨fresh', ?_, ?_⟩
  · rw [bareAll_append, sameA, ← same, ← bareAll_append]
    simp only [readProgram, whole, alone]
  · simp only [readProgram, whole, alone]

/-- Whatever tokens `B` come after the tokens `A` of a program without errors, other than an
    `else` in front, the whole is read as the statements of `A` and then those of `B` alone,
    up to the identities of nodes, and with the errors of `B` alone, which are reported at
    the same tokens. -/
theorem reading_splits_at_declarations (fresh fresh₁ fresh₂ : NodeId) (A B : List Token)
    (endless : ∀ t ∈ A, t.isEof = false) (quiet : (readProgram fresh₁ A).errors = [])
    (noElse : NoElse B) :
    Stmt.bareAll (readProgram fresh (A ++ B)).value =
        Stmt.bareAll ((readProgram fresh₁ A).value ++ (readProgram fresh₂ B).value) ∧
      (readProgram fresh (A ++ B)).errors = (readProgram fresh₂ B).errors ∧
      (readProgram fresh (A ++ B)).diagnostics = (readProgram fresh₂ B).diagnostics := by
  obtain ⟨fresh', values, errors⟩ := readProgram_append_any fresh fresh₁ endless quiet noElse
  obtain ⟨sameB, errorsB⟩ := readProgram_parallel fresh' fresh₂ B
  have sameErrors := errors.trans errorsB
  refine ⟨?_, sameErrors, ?_⟩
  · rw [values, bareAll_append, sameB, ← bareAll_append]
  · -- the token that ends the input counts only where there are errors
    rw [Reading.diagnostics, Reading.diagnostics, sameErrors]
    by_cases more : B = []
    · subst more
      rfl
    · have ending : (readProgram fresh (A ++ B)).ending = (readProgram fresh₂ B).ending := by
        rw [ending_readProgram, ending_readProgram, endingOf_append endless more]
      rw [ending]

/-- The theorem at `if (a) a;` in front of `{ var a; var 1; ) ; } a = ;`, where reading gives
    up inside a block, twice, and once more at the end. -/
theorem reading_splits_at_declarations_amid_errors :
    let word := fun k : Keyword => (⟨.keyword k, k.spelling, 1⟩ : Token)
    let sign := fun p : Punctuator => (⟨.punctuator p, p.spelling, 1⟩ : Token)
    let a : Token := ⟨.identifier, "a", 1⟩
    let one : Token := ⟨.number 1, "1", 1⟩
    let A := [word .ifWord, sign .leftParen, a, sign .rightParen, a, sign .semicolon]
    let B := [sign .leftBrace, word .varWord, a, sign .semicolon, word .varWord, one,
      sign .semicolon, sign .rightParen, sign .semicolon, sign .rightBrace, a, sign .equal,
      sign .semicolon]
    (readProgram 0 A).errors = [] ∧
      (readProgram 0 B).errors = [⟨some one, .variableName⟩,
        ⟨some (sign .rightParen), .expression⟩, ⟨some (sign .semicolon), .expression⟩] ∧
      (readProgram 0 (A ++ B)).errors = (readProgram 0 B).errors ∧
      Stmt.bareAll (readProgram 0 (A ++ B)).value =
        Stmt.bareAll [.ifElse (.var 0 a) (.expression (.var 0 a)) none,
          .block [.varDecl a none]] := by
  intro word sign a one A B
  have endless : ∀ t ∈ A, t.isEof = false := by decide
  have quiet : (readProgram 0 A).errors = [] := rfl
  have noElse : NoElse B := by
    intro t front kind
    cases front
    cases kind
  obtain ⟨values, errors, _⟩ := reading_splits_at_declarations 0 0 0 A B endless quiet noElse
  refine ⟨quiet, rfl, errors, ?_⟩
  rw [values]
  rfl

end Lox.Grammar
