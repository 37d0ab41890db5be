import Lox.Proofs.Grammar.Layout

/-! # Reading expressions

  The expression rules accept exactly the texts of trees that respect precedence, and build
  those trees.
-/

namespace Lox.Grammar

open Lox

/-- A text and a tree that it spells, which respects precedence and holds together with at
    least the given rank. -/
structure Tight (k : Nat) (w : List Token) (e : Expr) : Prop where
  /-- The tree respects precedence. -/
  respects : e.respects = true
  /-- The tree holds together tightly enough. -/
  rank : k ≤ e.rank
  /-- The tokens are the text of the tree. -/
  spells : e.Spells w

theorem Tight.mono {j k : Nat} {w : List Token} {e : Expr} (h : Tight k w e) (le : j ≤ k) :
    Tight j w e :=
  ⟨h.respects, Nat.le_trans le h.rank, h.spells⟩

/-! ### Texts put together -/

section texts

variable {u v w : List Token}

/-- A constant is spelled by its one token. -/
theorem tight_literal {value : Literal} {t : Token} (kind : t.kind = value.kind) :
    Tight 9 [t] (.literal value) :=
  ⟨rfl, Nat.le_refl 9, Expr.spells_literal.2 ⟨t, rfl, kind⟩⟩

theorem tight_var (node : NodeId) {name : Token} (kind : name.kind = .identifier) :
    Tight 9 [name] (.var node name) :=
  ⟨beq_iff_eq.2 kind, Nat.le_refl 9, Expr.spells_var.2 rfl⟩

theorem tight_thisRef (node : NodeId) {keyword : Token}
    (kind : keyword.kind = .keyword .thisWord) : Tight 9 [keyword] (.thisRef node keyword) :=
  ⟨beq_iff_eq.2 kind, Nat.le_refl 9, Expr.spells_thisRef.2 rfl⟩

theorem tight_superRef (node : NodeId) {keyword dot method : Token}
    (hkeyword : keyword.kind = .keyword .superWord) (hdot : dot.kind = .punctuator .dot)
    (hmethod : method.kind = .identifier) :
    Tight 9 [keyword, dot, method] (.superRef node keyword method) := by
  refine ⟨?_, Nat.le_refl 9, Expr.spells_superRef.2 ⟨dot, rfl, hdot⟩⟩
  show (keyword.kind == .keyword .superWord && method.kind == .identifier) = true
  simp [hkeyword, hmethod]

theorem tight_grouping {inner : Expr} {l r : Token} (left : l.kind = .punctuator .leftParen)
    (h : Tight 0 w inner) (right : r.kind = .punctuator .rightParen) :
    Tight 9 (l :: w ++ [r]) (.grouping inner) :=
  ⟨h.respects, Nat.le_refl 9, Expr.spells_grouping.2 ⟨l, w, r, rfl, left, h.spells, right⟩⟩

/-- Arguments whose texts stand between commas are spelled one by one. -/
theorem separated_tight {arguments : List Expr} (h : Separated (Tight 0) w arguments) :
    Separated (fun u e => e.Spells u) w arguments ∧ Expr.allRespect arguments = true := by
  induction h with
  | single tight =>
    refine ⟨.single tight.spells, ?_⟩
    simp [Expr.allRespect, tight.respects]
  | cons tight comma _ ih =>
    refine ⟨.cons tight.spells comma ih.1, ?_⟩
    simp [Expr.allRespect, tight.respects, ih.2]

/-- A callee, its arguments and the closing parenthesis make a call. -/
theorem tight_call {callee : Expr} {t paren : Token} {arguments : List Expr}
    (hcallee : Tight 8 u callee) (ht : t.kind = .punctuator .leftParen)
    (hparen : paren.kind = .punctuator .rightParen) (short : arguments.length ≤ maxArity)
    (h : arguments = [] ∧ v = [] ∨ Separated (Tight 0) v arguments) :
    Tight 8 (u ++ t :: v ++ [paren]) (.call callee paren arguments) := by
  have all : Expr.allRespect arguments = true ∧
      (arguments = [] ∧ v = [] ∨ Separated (fun u e => e.Spells u) v arguments) := by
    rcases h with ⟨rfl, rfl⟩ | separated
    · exact ⟨by simp [Expr.allRespect], .inl ⟨rfl, rfl⟩⟩
    · exact ⟨(separated_tight separated).2, .inr (separated_tight separated).1⟩
  refine ⟨?_, Nat.le_refl 8, Expr.spells_call.2 ⟨u, t, v, rfl, hcallee.spells, ht, all.2⟩⟩
  show (decide (8 ≤ callee.rank) && callee.respects &&
    paren.kind == .punctuator .rightParen && decide (arguments.length ≤ maxArity) &&
    Expr.allRespect arguments) = true
  simp [hcallee.rank, hcallee.respects, hparen, short, all.1]

theorem tight_get {object : Expr} {t name : Token} (hobject : Tight 8 u object)
    (ht : t.kind = .punctuator .dot) (hname : name.kind = .identifier) :
    Tight 8 (u ++ [t, name]) (.get object name) := by
  refine ⟨?_, Nat.le_refl 8, Expr.spells_get.2 ⟨u, t, rfl, hobject.spells, ht⟩⟩
  show (decide (8 ≤ object.rank) && object.respects && name.kind == .identifier) = true
  simp [hobject.rank, hobject.respects, hname]

theorem tight_unary {op : Token} {right : Expr} (hop : isPrefixOperator op.kind = true)
    (h : Tight 7 w right) : Tight 7 (op :: w) (.unary op right) := by
  refine ⟨?_, Nat.le_refl 7, Expr.spells_unary.2 ⟨w, rfl, h.spells⟩⟩
  show (isPrefixOperator op.kind && decide (7 ≤ right.rank) && right.respects) = true
  simp [hop, h.rank, h.respects]

theorem tight_assign (node : NodeId) {name equals : Token} {value : Expr}
    (hname : name.kind = .identifier) (hequals : equals.kind = .punctuator .equal)
    (h : Tight 0 v value) : Tight 0 (name :: equals :: v) (.assign node name value) := by
  refine ⟨?_, Nat.zero_le _, Expr.spells_assign.2 ⟨equals, v, rfl, hequals, h.spells⟩⟩
  show (name.kind == .identifier && value.respects) = true
  simp [hname, h.respects]

theorem tight_set {object value : Expr} {t name equals : Token} (hobject : Tight 8 u object)
    (ht : t.kind = .punctuator .dot) (hname : name.kind = .identifier)
    (hequals : equals.kind = .punctuator .equal) (h : Tight 0 v value) :
    Tight 0 (u ++ t :: name :: equals :: v) (.set object name value) := by
  refine ⟨?_, Nat.zero_le _, Expr.spells_set.2
    ⟨u, t, equals, v, rfl, hobject.spells, ht, hequals, h.spells⟩⟩
  show (decide (8 ≤ object.rank) && object.respects && name.kind == .identifier &&
    value.respects) = true
  simp [hobject.rank, hobject.respects, hname, h.respects]

end texts

/-! ### What the rules read -/

section soundness

variable {expression : Parser Expr}

theorem reads_superRule {keyword : Token} (word : keyword.kind = .keyword .superWord) :
    Reads (superRule keyword) fun w e => Tight 9 (keyword :: w) e := by
  refine ((reads_expect (.punctuator .dot) .superDot).bind fun _ =>
    (reads_expect .identifier .superMethod).bind fun method =>
      reads_freshNode.bind fun node => Reads.pure _).weaken ?_
  intro w e h
  obtain ⟨_, _, dot, rfl, ⟨rfl, hdot⟩, _, _, method, rfl, ⟨rfl, hmethod⟩, _, _, node, rfl, rfl,
    rfl, rfl⟩ := h
  exact tight_superRef node word (TokenKind.agrees_punctuator.1 hdot)
    (TokenKind.agrees_identifier.1 hmethod)

theorem reads_groupingRule (nested : Reads expression (Tight 0)) {l : Token}
    (left : l.kind = .punctuator .leftParen) :
    Reads (groupingRule expression) fun w e => Tight 9 (l :: w) e := by
  refine (nested.bind fun inner =>
    (reads_expect (.punctuator .rightParen) .closingParen).bind fun _ =>
      Reads.pure _).weaken ?_
  intro w e h
  obtain ⟨u, _, inner, rfl, hinner, _, _, r, rfl, ⟨rfl, hr⟩, rfl, rfl⟩ := h
  simpa using tight_grouping left hinner (TokenKind.agrees_punctuator.1 hr)

theorem reads_primary (nested : Reads expression (Tight 0)) :
    Reads (primary expression) (Tight 9) := by
  refine reads_select ?_ ((reads_reject .expression).weaken fun _ _ h => h.elim)
  intro token rule chosen
  unfold primaryRule? at chosen
  split at chosen
  all_goals cases chosen
  -- the cases stand in the order of the rule: literals, `super`, `this`, names, parentheses
  case h_1 kind | h_2 kind | h_3 kind | h_4 value kind | h_5 text kind =>
    refine (Reads.pure _).weaken ?_
    intro w e h
    obtain ⟨rfl, rfl⟩ := h
    exact tight_literal kind
  case h_6 kind => exact reads_superRule kind
  case h_7 kind =>
    refine (reads_freshNode.bind fun node => Reads.pure _).weaken ?_
    intro w e h
    obtain ⟨_, _, node, rfl, rfl, rfl, rfl⟩ := h
    exact tight_thisRef node kind
  case h_8 kind =>
    refine (reads_freshNode.bind fun node => Reads.pure _).weaken ?_
    intro w e h
    obtain ⟨_, _, node, rfl, rfl, rfl, rfl⟩ := h
    exact tight_var node kind
  case h_9 kind => exact reads_groupingRule nested kind

theorem reads_argument (nested : Reads expression (Tight 0)) (count : Nat) :
    Reads (argument expression count) fun w e => count < maxArity ∧ Tight 0 w e :=
  reads_limited nested .tooManyArguments count

theorem reads_callRule (nested : Reads expression (Tight 0)) (callee : Expr) :
    Reads (callRule expression callee) fun w e =>
      ∀ u t, Tight 8 u callee → t.kind = .punctuator .leftParen → Tight 8 (u ++ t :: w) e := by
  refine ((reads_itemsBeforeParen (reads_argument nested)).bind fun arguments =>
    (reads_expect (.punctuator .rightParen) .argumentsParen).bind fun paren =>
      Reads.pure _).weaken ?_
  intro w e h u t hcallee ht
  obtain ⟨v, _, arguments, rfl, ⟨short, hargs⟩, _, _, paren, rfl, ⟨rfl, hparen⟩, rfl, rfl⟩ := h
  have made := tight_call hcallee ht (TokenKind.agrees_punctuator.1 hparen) short hargs
  simpa using made

theorem reads_propertyRule (object : Expr) :
    Reads (propertyRule object) fun w e =>
      ∀ u t, Tight 8 u object → t.kind = .punctuator .dot → Tight 8 (u ++ t :: w) e := by
  refine ((reads_expect .identifier .propertyName).bind fun name => Reads.pure _).weaken ?_
  intro w e h u t hobject ht
  obtain ⟨_, _, name, rfl, ⟨rfl, hname⟩, rfl, rfl⟩ := h
  exact tight_get hobject ht (TokenKind.agrees_identifier.1 hname)

theorem reads_suffixes (nested : Reads expression (Tight 0)) (bound : Nat) (e : Expr) :
    Reads (suffixes expression bound e) fun w e' => ∀ u, Tight 8 u e → Tight 8 (u ++ w) e' := by
  have none : ∀ e, Reads (pure e : Parser Expr) fun w e' =>
      ∀ u, Tight 8 u e → Tight 8 (u ++ w) e' := by
    intro e
    refine (Reads.pure e).weaken ?_
    intro w e' h u tight
    obtain ⟨rfl, rfl⟩ := h
    rwa [List.append_nil]
  induction bound generalizing e with
  | zero => exact none e
  | succ bound ih =>
    refine reads_select ?_ (none e)
    intro token rule chosen
    obtain ⟨suffix, hsuffix, rfl⟩ := Option.map_eq_some_iff.1 chosen
    -- with one suffix more, the expression read so far is again one that takes suffixes
    have one : Reads suffix fun w e' => ∀ u, Tight 8 u e → Tight 8 (u ++ token :: w) e' := by
      unfold suffixRule? at hsuffix
      split at hsuffix
      · next kind =>
        cases hsuffix
        exact (reads_callRule nested e).weaken fun w e' h u tight => h u token tight kind
      · next kind =>
        cases hsuffix
        exact (reads_propertyRule e).weaken fun w e' h u tight => h u token tight kind
      · cases hsuffix
    refine (one.bind fun e' => ih e').weaken ?_
    intro w e'' h u tight
    obtain ⟨v, v', e', rfl, first, later⟩ := h
    simpa using later _ (first u tight)

theorem reads_call (nested : Reads expression (Tight 0)) :
    Reads (call expression) (Tight 8) := by
  refine ((reads_primary nested).bind fun e => reads_remaining.bind fun bound =>
    reads_suffixes nested bound e).weaken ?_
  intro w e h
  obtain ⟨u, _, e₀, rfl, hprimary, _, v, _, rfl, rfl, later⟩ := h
  exact later u (hprimary.mono (by omega))

theorem reads_unary (nested : Reads expression (Tight 0)) (bound : Nat) :
    Reads (unary expression bound) (Tight 7) := by
  have unprefixed := (reads_call nested).weaken fun w e h => h.mono (j := 7) (by omega)
  induction bound with
  | zero => exact unprefixed
  | succ bound ih =>
    refine reads_select ?_ unprefixed
    intro token rule chosen
    split at chosen
    · next operator =>
      cases chosen
      refine (ih.bind fun right => Reads.pure _).weaken ?_
      intro w e h
      obtain ⟨v, _, right, rfl, hright, rfl, rfl⟩ := h
      simpa using tight_unary operator hright
    · cases chosen

/-! ### Levels of operators -/

/-- A level of operators of the given precedence: which trees it builds. -/
structure Level.Ranked (level : Level) (k : Nat) : Prop where
  /-- Its operators are those of that precedence. -/
  precedence : ∀ kind, kind ∈ level.operators ↔ precedence? kind = some k
  /-- Its nodes have that rank. -/
  rank : ∀ l op r, op.kind ∈ level.operators → (level.node l op r).rank = k
  /-- Its nodes respect precedence if their operands do and group from the left. -/
  respects : ∀ l op r, op.kind ∈ level.operators →
    (level.node l op r).respects = (decide (k ≤ l.rank) && decide (k < r.rank) &&
      l.respects && r.respects)
  /-- The text of its nodes. -/
  spells : ∀ l op r w, (level.node l op r).Spells w ↔
    ∃ u v, w = u ++ op :: v ∧ l.Spells u ∧ r.Spells v
  /-- It builds every tree of that rank. -/
  covers : ∀ e : Expr, e.respects = true → e.rank = k →
    ∃ l op r, op.kind ∈ level.operators ∧ e = level.node l op r
  /-- Nodes that differ only in identities have operands that do. -/
  bare : ∀ l op r, (level.node l op r).bare = level.node l.bare op r.bare

/-- Levels of precedence `k` and up to the operators that stand before their operand. -/
def Ladder : Nat → List Level → Prop
  | k, [] => k = 7
  | k, level :: tighter => level.Ranked k ∧ Ladder (k + 1) tighter

/-- An operator between operands that it fits has a precedence, which is the rank. -/
theorem precedence_of_fitsBetween {op : Token} {l r : Nat}
    (h : Expr.fitsBetween op l r = true) :
    precedence? op.kind = some ((precedence? op.kind).getD 0) := by
  unfold Expr.fitsBetween at h
  cases hp : precedence? op.kind with
  | none =>
    rw [hp] at h
    exact absurd h (by simp)
  | some p => rfl

/-- A level whose nodes are binary operations. -/
theorem ranked_binary {operators : List TokenKind} {k : Nat} (low : 3 ≤ k) (high : k ≤ 6)
    (precedence : ∀ kind, kind ∈ operators ↔ precedence? kind = some k) :
    Level.Ranked ⟨operators, .binary⟩ k := by
  have of_mem : ∀ l op r, op.kind ∈ operators → (Expr.binary l op r).rank = k := by
    intro l op r mem
    rw [Expr.rank, (precedence _).1 mem, Option.getD_some]
  refine ⟨precedence, of_mem, ?_, ?_, ?_, ?_⟩
  · intro l op r mem
    simp only [Expr.respects, Expr.fitsBetween, of_mem l op r mem, (precedence _).1 mem, low,
      Option.any_some, decide_true, Bool.and_true]
  · intro l op r w
    exact Expr.spells_binary
  · intro e respects rank
    cases e with
    | binary l op r =>
      simp only [Expr.respects, Bool.and_eq_true] at respects
      have known := precedence_of_fitsBetween respects.1.1.1
      refine ⟨l, op, r, (precedence _).2 ?_, rfl⟩
      rw [known]
      exact congrArg some rank
    -- a logical operation has rank 2 at most, and no other tree has a rank from 3 to 6
    | logical l op r =>
      simp only [Expr.respects, Bool.and_eq_true, decide_eq_true_eq] at respects
      have := respects.1.1.2
      omega
    | _ =>
      simp only [Expr.rank] at rank
      omega
  · intro l op r
    simp only [Expr.bare]

/-- A level whose nodes are logical operations. -/
theorem ranked_logical {operators : List TokenKind} {k : Nat} (low : 1 ≤ k) (high : k ≤ 2)
    (precedence : ∀ kind, kind ∈ operators ↔ precedence? kind = some k) :
    Level.Ranked ⟨operators, .logical⟩ k := by
  have of_mem : ∀ l op r, op.kind ∈ operators → (Expr.logical l op r).rank = k := by
    intro l op r mem
    rw [Expr.rank, (precedence _).1 mem, Option.getD_some]
  refine ⟨precedence, of_mem, ?_, ?_, ?_, ?_⟩
  · intro l op r mem
    simp only [Expr.respects, Expr.fitsBetween, of_mem l op r mem, (precedence _).1 mem, high,
      Option.any_some, decide_true, Bool.and_true]
  · intro l op r w
    exact Expr.spells_logical
  · intro e respects rank
    cases e with
    | logical l op r =>
      simp only [Expr.respects, Bool.and_eq_true] at respects
      have known := precedence_of_fitsBetween respects.1.1.1
      refine ⟨l, op, r, (precedence _).2 ?_, rfl⟩
      rw [known]
      exact congrArg some rank
    -- binary operators bind tighter, and no other tree has a rank as low
    | binary l op r =>
      simp only [Expr.respects, Bool.and_eq_true, decide_eq_true_eq] at respects
      have := respects.1.1.2
      omega
    | _ =>
      simp only [Expr.rank] at rank
      omega
  · intro l op r
    simp only [Expr.bare]

/-- The levels of the grammar stand in the order of precedence. -/
theorem ladder_levels : Ladder 1 levels := by
  refine ⟨ranked_logical (by omega) (by omega) ?_, ranked_logical (by omega) (by omega) ?_,
    ranked_binary (by omega) (by omega) ?_, ranked_binary (by omega) (by omega) ?_,
    ranked_binary (by omega) (by omega) ?_, ranked_binary (by omega) (by omega) ?_, rfl⟩
  all_goals
    intro kind
    cases kind with
    | punctuator p => cases p <;> simp [precedence?]
    | keyword w => cases w <;> simp [precedence?]
    | _ => simp [precedence?]

/-- An operator of a level between a left operand that holds as tightly and a right one that
    holds more tightly. -/
theorem tight_node {level : Level} {k : Nat} (ranked : level.Ranked k) {u v : List Token}
    {left right : Expr} {op : Token} (mem : op.kind ∈ level.operators) (hleft : Tight k u left)
    (hright : Tight (k + 1) v right) :
    Tight k (u ++ op :: v) (level.node left op right) := by
  refine ⟨?_, Nat.le_of_eq (ranked.rank _ _ _ mem).symm,
    (ranked.spells _ _ _ _).2 ⟨u, v, rfl, hleft.spells, hright.spells⟩⟩
  rw [ranked.respects _ _ _ mem]
  simp [hleft.rank, hleft.respects, hright.respects, Nat.lt_of_succ_le hright.rank]

theorem reads_chain {level : Level} {k : Nat} (ranked : level.Ranked k)
    {operand : Parser Expr} (h : Reads operand (Tight (k + 1))) (bound : Nat) (left : Expr) :
    Reads (level.chain operand bound left) fun w e =>
      ∀ u, Tight k u left → Tight k (u ++ w) e := by
  have none : ∀ left, Reads (pure left : Parser Expr) fun w e =>
      ∀ u, Tight k u left → Tight k (u ++ w) e := by
    intro left
    refine (Reads.pure left).weaken ?_
    intro w e h u tight
    obtain ⟨rfl, rfl⟩ := h
    rwa [List.append_nil]
  induction bound generalizing left with
  | zero => exact none left
  | succ bound ih =>
    refine reads_select ?_ (none left)
    intro token rule chosen
    split at chosen
    · -- the operation becomes the left operand of what follows: operators group from the left
      next mem =>
      cases chosen
      refine (h.bind fun right => ih (level.node left token right)).weaken ?_
      intro w e holds u tight
      obtain ⟨v, v', right, rfl, hright, later⟩ := holds
      simpa using later _ (tight_node ranked mem tight hright)
    · cases chosen

theorem reads_operation (nested : Reads expression (Tight 0)) {ls : List Level} {k : Nat}
    (ladder : Ladder k ls) : Reads (operation expression ls) (Tight k) := by
  induction ls generalizing k with
  | nil =>
    obtain rfl : k = 7 := ladder
    refine (reads_remaining.bind fun bound => reads_unary nested bound).weaken ?_
    intro w e h
    obtain ⟨_, v, _, rfl, rfl, tight⟩ := h
    exact tight
  | cons level tighter ih =>
    obtain ⟨ranked, ladder⟩ := ladder
    have operand := ih ladder
    refine (operand.bind fun first => reads_remaining.bind fun bound =>
      reads_chain ranked operand bound first).weaken ?_
    intro w e h
    obtain ⟨u, _, first, rfl, hfirst, _, v, _, rfl, rfl, later⟩ := h
    exact later u (hfirst.mono (by omega))

/-! ### Assignments -/

/-- Of the targets that are read before an equals sign, only names and property accesses are
    accepted quietly. -/
theorem reads_assignTo (target value : Expr) {equals : Token}
    (hequals : equals.kind = .punctuator .equal) :
    Reads (assignTo target equals value) fun w e =>
      w = [] ∧ ∀ u v, Tight 1 u target → Tight 0 v value → Tight 0 (u ++ equals :: v) e := by
  cases target with
  | var node name =>
    refine (reads_freshNode.bind fun node => Reads.pure _).weaken ?_
    intro w e h
    obtain ⟨_, _, node, rfl, rfl, rfl, rfl⟩ := h
    refine ⟨rfl, fun u v htarget hvalue => ?_⟩
    -- a tree of a name has no other text than that name
    obtain rfl := Expr.spells_var.1 htarget.spells
    have kind := htarget.respects
    simp only [Expr.respects, beq_iff_eq] at kind
    exact tight_assign node kind hequals hvalue
  | get object name =>
    refine (Reads.pure _).weaken ?_
    intro w e h
    obtain ⟨rfl, rfl⟩ := h
    refine ⟨rfl, fun u v htarget hvalue => ?_⟩
    obtain ⟨u, t, rfl, hobject, ht⟩ := Expr.spells_get.1 htarget.spells
    have parts := htarget.respects
    simp only [Expr.respects, Bool.and_eq_true, decide_eq_true_eq, beq_iff_eq] at parts
    have object_text : Tight 8 u object := ⟨parts.1.2, parts.1.1, hobject⟩
    simpa using tight_set object_text ht parts.2 hequals hvalue
  | _ =>
    refine ((reads_record ⟨some equals, .assignmentTarget⟩).bind
      fun _ => Reads.pure _).weaken ?_
    intro w e h
    obtain ⟨_, _, _, _, no, _⟩ := h
    exact no.elim

theorem reads_assignmentRule (nested : Reads expression (Tight 0)) (target : Expr)
    {equals : Token} (hequals : equals.kind = .punctuator .equal) :
    Reads (assignmentRule expression target equals) fun w e =>
      ∀ u, Tight 1 u target → Tight 0 (u ++ equals :: w) e := by
  refine (nested.bind fun value => reads_assignTo target value hequals).weaken ?_
  intro w e h u htarget
  obtain ⟨v, _, value, rfl, hvalue, rfl, made⟩ := h
  simpa using made u v htarget hvalue

/-- What comes after the target of an assignment, if it is one. -/
theorem reads_assigned (nested : Reads expression (Tight 0)) (target : Expr) :
    Reads (accept? (.punctuator .equal) >>= fun
      | some equals => assignmentRule expression target equals
      | none => pure target) fun w e => ∀ u, Tight 1 u target → Tight 0 (u ++ w) e := by
  refine reads_accept?_bind ?_ fun equals agrees => ?_
  · refine (Reads.pure target).weaken ?_
    intro w e h u tight
    obtain ⟨rfl, rfl⟩ := h
    rw [List.append_nil]
    exact tight.mono (by omega)
  · exact reads_assignmentRule nested target (TokenKind.agrees_punctuator.1 agrees)

theorem reads_assignment (nested : Reads expression (Tight 0)) :
    Reads (assignment expression) (Tight 0) := by
  refine ((reads_operation nested ladder_levels).bind (reads_assigned nested)).weaken ?_
  intro w e h
  obtain ⟨u, v, target, rfl, tight, later⟩ := h
  exact later u tight

/-- What an expression reads quietly is the text of the tree it yields. -/
theorem reads_expression (depth : Nat) : Reads (Grammar.expression depth) (Tight 0) := by
  induction depth with
  | zero => exact (reads_reject .expression).weaken fun _ _ h => h.elim
  | succ depth ih => exact reads_assignment ih

theorem reads_nestedExpression : Reads nestedExpression (Tight 0) := by
  refine (reads_remaining.bind fun depth => reads_expression depth).weaken ?_
  intro w e h
  obtain ⟨_, v, _, rfl, rfl, tight⟩ := h
  exact tight

end soundness

end Lox.Grammar
