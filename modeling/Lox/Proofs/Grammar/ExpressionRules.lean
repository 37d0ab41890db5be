import Lox.Proofs.Grammar.ExpressionTexts
import Lox.Proofs.Grammar.Rules

/-! # The rules for expressions

  The lists derived from `expression` are exactly the texts of trees that respect
  precedence, and likewise for each of the tighter symbols.

  From derivations to trees the argument is an induction over derivations. From trees to
  derivations it is an induction on the length of the text, and for one text on how far the
  symbol stands above `primary` in the table.
-/

namespace Lox.Grammar

/-- What is derived from the symbols for expressions. Nothing is said of the others. -/
def expressionText : Symbol → List Token → Prop
  | .expression, w => ∃ e, Tight 0 w e
  | .assignment, w => ∃ e, Tight 0 w e
  | .logicOr, w => ∃ e, Tight 1 w e
  | .logicAnd, w => ∃ e, Tight 2 w e
  | .equality, w => ∃ e, Tight 3 w e
  | .comparison, w => ∃ e, Tight 4 w e
  | .term, w => ∃ e, Tight 5 w e
  | .factor, w => ∃ e, Tight 6 w e
  | .unary, w => ∃ e, Tight 7 w e
  | .call, w => ∃ e, Tight 8 w e
  | .primary, w => ∃ e, Tight 9 w e
  | .arguments, w => ∃ es, es.length ≤ maxArity ∧ Separated (Tight 0) w es
  | _, _ => True

/-- How far a symbol for expressions stands above `primary`; none for other symbols. -/
def Symbol.height? : Symbol → Option Nat
  | .arguments => some 12
  | .expression => some 11
  | .assignment => some 10
  | .logicOr => some 9
  | .logicAnd => some 8
  | .equality => some 7
  | .comparison => some 6
  | .term => some 5
  | .factor => some 4
  | .unary => some 3
  | .call => some 2
  | .primary => some 1
  | _ => none

/-- What a list of operators in the table stands for: the tokens of one precedence. -/
def OfPrecedence (operators : List Pattern) (k : Nat) : Prop :=
  ∀ (Q : Symbol → List Token → Prop) (w : List Token),
    Fits Q (.alt operators) w ↔ ∃ t, w = [t] ∧ precedence? t.kind = some k

open Pattern in
theorem operators_of_precedence :
    OfPrecedence [word .orWord] 1 ∧ OfPrecedence [word .andWord] 2 ∧
      OfPrecedence [sign .bangEqual, sign .equalEqual] 3 ∧
      OfPrecedence [sign .greater, sign .greaterEqual, sign .less, sign .lessEqual] 4 ∧
      OfPrecedence [sign .minus, sign .plus] 5 ∧ OfPrecedence [sign .slash, sign .star] 6 := by
  refine ⟨?_, ?_, ?_, ?_, ?_, ?_⟩
  all_goals
    intro Q w
    simp only [fits_alt_cons, fits_alt_nil, fits_word, fits_sign, or_false, ← exists_or,
      ← and_or_left]
    refine exists_congr fun t => and_congr_right fun _ => ?_
    cases t.kind with
    | punctuator p => cases p <;> simp [precedence?]
    | keyword k => cases k <;> simp [precedence?]
    | _ => simp [precedence?]

theorem fits_prefixOperators {Q : Symbol → List Token → Prop} {w : List Token} :
    Fits Q (.alt [.sign .bang, .sign .minus]) w ↔
      ∃ t, w = [t] ∧ isPrefixOperator t.kind = true := by
  simp [isPrefixOperator, ← exists_or, ← and_or_left]

/-! ### From derivations to trees -/

section build

variable {Q : Symbol → List Token → Prop} {w : List Token}

/-- A tree grows with every piece that may be added to its text. -/
theorem tight_grow {k : Nat} {ws : List (List Token)}
    (round : ∀ x ∈ ws, ∀ v e, Tight k v e → ∃ e', Tight k (v ++ x) e') {v : List Token}
    {e : Expr} (h : Tight k v e) : ∃ e', Tight k (v ++ ws.flatten) e' := by
  induction ws generalizing v e with
  | nil => exact ⟨e, by simpa using h⟩
  | cons x ws ih =>
    obtain ⟨e₁, h₁⟩ := round x (List.mem_cons_self ..) v e h
    obtain ⟨e₂, h₂⟩ := ih (fun y hy => round y (List.mem_cons_of_mem _ hy)) h₁
    exact ⟨e₂, by simpa using h₂⟩

/-- Operands of the next tighter level with operators between them. -/
theorem tight_of_chain {level : Level} {k : Nat} (ranked : level.Ranked k) {s : Symbol}
    {operators : List Pattern} (ops : OfPrecedence operators k)
    (operand : ∀ u, Q s u → ∃ e, Tight (k + 1) u e) (h : Fits Q (.chain s operators) w) :
    ∃ e, Tight k w e := by
  obtain ⟨u, _, rfl, hu, _, _, rfl, ⟨ws, rfl, all⟩, rfl⟩ := h
  obtain ⟨first, hfirst⟩ := operand u hu
  rw [List.append_nil]
  refine tight_grow ?_ (hfirst.mono (Nat.le_succ k))
  intro x hx v e hv
  have fits := all x hx
  rw [fits_seq_alt] at fits
  obtain ⟨o, _, rfl, ho, r, _, rfl, hr, rfl⟩ := fits
  obtain ⟨op, rfl, hop⟩ := (ops Q o).1 ho
  obtain ⟨right, hright⟩ := operand r hr
  have mem := (ranked.precedence op.kind).2 hop
  exact ⟨_, by simpa using tight_node ranked mem hv hright⟩

/-- A primary expression with argument lists and property names after it. -/
theorem tight_of_call (primary : ∀ u, Q .primary u → ∃ e, Tight 9 u e)
    (arguments : ∀ u, Q .arguments u →
      ∃ es, es.length ≤ maxArity ∧ Separated (Tight 0) u es)
    (h : Fits Q (rule .call) w) : ∃ e, Tight 8 w e := by
  obtain ⟨u, _, rfl, hu, _, _, rfl, ⟨ws, rfl, all⟩, rfl⟩ := h
  obtain ⟨first, hfirst⟩ := primary u hu
  rw [List.append_nil]
  refine tight_grow ?_ (hfirst.mono (by omega))
  intro x hx v e hv
  have fits := all x hx
  simp only [fits_alt_cons, fits_alt_nil, or_false, fits_seq_sign, fits_seq_opt,
    fits_seq_name, fits_seq_nil, fits_symbol] at fits
  -- each piece is an argument list or a property name, and wraps the tree read so far
  rcases fits with ⟨l, _, rfl, hl, a, _, rfl, ha, r, _, rfl, hr, rfl⟩ |
    ⟨t, _, rfl, ht, name, _, rfl, hname, rfl⟩
  · have listed : ∃ es, es.length ≤ maxArity ∧
        (es = [] ∧ a = [] ∨ Separated (Tight 0) a es) := by
      rcases ha with rfl | ha
      · exact ⟨[], Nat.zero_le _, .inl ⟨rfl, rfl⟩⟩
      · obtain ⟨es, short, separated⟩ := arguments a ha
        exact ⟨es, short, .inr separated⟩
    obtain ⟨es, short, hes⟩ := listed
    exact ⟨_, by simpa using tight_call hv hl hr short hes⟩
  · exact ⟨_, tight_get hv ht hname⟩

theorem tight_of_assignment (call : ∀ u, Q .call u → ∃ e, Tight 8 u e)
    (assignment : ∀ u, Q .assignment u → ∃ e, Tight 0 u e)
    (logicOr : ∀ u, Q .logicOr u → ∃ e, Tight 1 u e) (h : Fits Q (rule .assignment) w) :
    ∃ e, Tight 0 w e := by
  simp only [rule, fits_alt_cons, fits_alt_nil, or_false, fits_seq_opt, fits_seq_symbol,
    fits_seq_sign, fits_seq_name, fits_seq_nil, fits_symbol] at h
  rcases h with ⟨u, _, rfl, hu, name, _, rfl, hname, q, _, rfl, hq, v, _, rfl, hv, rfl⟩ | h
  · obtain ⟨value, hvalue⟩ := assignment v hv
    rcases hu with rfl | ⟨c, _, rfl, hc, dot, _, rfl, hdot, rfl⟩
    · exact ⟨_, by simpa using tight_assign 0 hname hq hvalue⟩
    · obtain ⟨object, hobject⟩ := call c hc
      exact ⟨_, by simpa using tight_set hobject hdot hname hq hvalue⟩
  · obtain ⟨e, he⟩ := logicOr w h
    exact ⟨e, he.mono (Nat.zero_le 1)⟩

theorem tight_of_unary (unary : ∀ u, Q .unary u → ∃ e, Tight 7 u e)
    (call : ∀ u, Q .call u → ∃ e, Tight 8 u e) (h : Fits Q (rule .unary) w) :
    ∃ e, Tight 7 w e := by
  rcases h with ⟨o, _, rfl, ho, u, _, rfl, hu, rfl⟩ | h | h
  · obtain ⟨op, rfl, hop⟩ := fits_prefixOperators.1 ho
    obtain ⟨right, hright⟩ := unary u hu
    exact ⟨_, by simpa using tight_unary hop hright⟩
  · obtain ⟨e, he⟩ := call w h
    exact ⟨e, he.mono (by omega)⟩
  · exact h.elim

theorem tight_of_primary (expression : ∀ u, Q .expression u → ∃ e, Tight 0 u e)
    (h : Fits Q (rule .primary) w) : ∃ e, Tight 9 w e := by
  simp only [rule, fits_alt_cons, fits_alt_nil, or_false, fits_seq_symbol, fits_seq_sign,
    fits_seq_word, fits_seq_name, fits_seq_nil, fits_token, fits_word, fits_name] at h
  rcases h with ⟨t, rfl, agrees⟩ | ⟨t, rfl, agrees⟩ | ⟨t, rfl, kind⟩ | ⟨t, rfl, kind⟩ |
    ⟨t, rfl, kind⟩ | ⟨t, rfl, kind⟩ | ⟨t, rfl, kind⟩ |
    ⟨l, _, rfl, hl, u, _, rfl, hu, r, _, rfl, hr, rfl⟩ |
    ⟨k, _, rfl, hk, dot, _, rfl, hdot, method, _, rfl, hmethod, rfl⟩
  -- numbers and strings agree with their kinds whatever their values are
  · cases kind : t.kind with
    | number x => exact ⟨.literal (.number x), tight_literal kind⟩
    | _ => simp [kind, TokenKind.agrees] at agrees
  · cases kind : t.kind with
    | string x => exact ⟨.literal (.string x), tight_literal kind⟩
    | _ => simp [kind, TokenKind.agrees] at agrees
  · exact ⟨.literal (.bool true), tight_literal kind⟩
  · exact ⟨.literal (.bool false), tight_literal kind⟩
  · exact ⟨.literal .nil, tight_literal kind⟩
  · exact ⟨_, tight_thisRef 0 kind⟩
  · exact ⟨_, tight_var 0 kind⟩
  · obtain ⟨inner, hinner⟩ := expression u hu
    exact ⟨_, tight_grouping hl hinner hr⟩
  · exact ⟨_, tight_superRef 0 hk hdot hmethod⟩

end build

/-- What is derived from a symbol for expressions is the text of such an expression. -/
theorem expressionText_of_derives {s : Symbol} {w : List Token} (h : Derives s w) :
    expressionText s w := by
  obtain ⟨or, and, equality, comparison, term, factor, _⟩ := ladder_levels
  obtain ⟨orOps, andOps, equalityOps, comparisonOps, termOps, factorOps⟩ :=
    operators_of_precedence
  -- on the derivation: the pieces have their trees, and each rule makes one tree of them
  refine h.induct fun s w fits => ?_
  replace fits := fits.mono fun _ _ known => known.2
  cases s with
  | expression => exact fits
  | assignment =>
    exact tight_of_assignment (fun _ h => h) (fun _ h => h) (fun _ h => h) fits
  | logicOr => exact tight_of_chain or orOps (fun _ h => h) fits
  | logicAnd => exact tight_of_chain and andOps (fun _ h => h) fits
  | equality => exact tight_of_chain equality equalityOps (fun _ h => h) fits
  | comparison => exact tight_of_chain comparison comparisonOps (fun _ h => h) fits
  | term => exact tight_of_chain term termOps (fun _ h => h) fits
  | factor => exact tight_of_chain factor factorOps (fun _ h => h) fits
  | unary => exact tight_of_unary (fun _ h => h) (fun _ h => h) fits
  | call => exact tight_of_call (fun _ h => h) (fun _ h => h) fits
  | arguments => exact (fits_list fun _ => Iff.rfl).1 fits
  | primary => exact tight_of_primary (fun _ h => h) fits
  | _ => trivial

/-! ### From trees to derivations -/

/-- What can be taken apart by the rules, into pieces that come earlier in some order, is
    derived. -/
theorem derives_of_descent {Q : Symbol → List Token → Prop} (measure : Symbol → List Token → Nat)
    (parts : ∀ s w, Q s w →
      Fits (fun s' u => Q s' u ∧ measure s' u < measure s w) (rule s) w)
    {s : Symbol} {w : List Token} (h : Q s w) : Derives s w := by
  induction hn : measure s w using Nat.strongRecOn generalizing s w with
  | ind n ih =>
    refine derives_iff.2 ((parts s w h).mono fun s' u below => ?_)
    exact ih (measure s' u) (hn ▸ below.2) below.1 rfl

/-- A text of some rank is a text of the next higher rank followed by pieces, if each text
    that is not of the higher rank ends in such a piece. -/
theorem Tight.spine {k : Nat} {R : List Token → Prop}
    (last : ∀ w e, Tight k w e → Tight (k + 1) w e ∨
      ∃ v x e', w = v ++ x ∧ Tight k v e' ∧ x ≠ [] ∧ R x)
    {w : List Token} {e : Expr} (h : Tight k w e) :
    ∃ (u : List Token) (ws : List (List Token)), w = u ++ ws.flatten ∧
      (∃ e', Tight (k + 1) u e') ∧ ∀ x ∈ ws, R x ∧ x.length ≤ w.length := by
  induction hn : w.length using Nat.strongRecOn generalizing w e with
  | ind n ih =>
    -- the last piece is split off, and what stands before it is shorter
    rcases last w e h with higher | ⟨v, x, e', rfl, hv, nonempty, hx⟩
    · exact ⟨w, [], by simp, ⟨e, higher⟩, fun x hx => nomatch hx⟩
    · have shorter : v.length < n := by
        have := List.length_pos_of_ne_nil nonempty
        rw [List.length_append] at hn
        omega
      obtain ⟨u, ws, rfl, hu, all⟩ := ih v.length shorter hv rfl
      refine ⟨u, ws ++ [x], by simp, hu, ?_⟩
      intro y hy
      rw [List.length_append] at hn
      rcases List.mem_append.1 hy with early | final
      · have := (all y early).2
        exact ⟨(all y early).1, by omega⟩
      · obtain rfl := List.mem_singleton.1 final
        exact ⟨hx, by omega⟩

/-- How many tokens a list has and how far its symbol stands above `primary`. -/
def expressionMeasure (s : Symbol) (w : List Token) : Nat :=
  13 * w.length + s.height?.getD 0

/-- What stands before a list and its symbol in the order of `expressionMeasure`. -/
def Below (s : Symbol) (w : List Token) (s' : Symbol) (u : List Token) : Prop :=
  (s'.height?.isSome ∧ expressionText s' u) ∧ expressionMeasure s' u < expressionMeasure s w

theorem below_iff {s s' : Symbol} {m n : Nat} (high : s.height? = some m)
    (low : s'.height? = some n) {u w : List Token} :
    Below s w s' u ↔ expressionText s' u ∧ 13 * u.length + n < 13 * w.length + m := by
  simp only [Below, expressionMeasure, high, low, Option.isSome_some, Option.getD_some,
    true_and]

section split

variable {w : List Token} {e : Expr}

theorem chain_of_tight {level : Level} {k : Nat} (ranked : level.Ranked k) {s s' : Symbol}
    {operators : List Pattern} (ops : OfPrecedence operators k)
    (operand : ∀ u e, Tight (k + 1) u e → u.length ≤ w.length → Below s w s' u)
    (h : Tight k w e) : Fits (Below s w) (.chain s' operators) w := by
  have last : ∀ w e, Tight k w e → Tight (k + 1) w e ∨ ∃ v x e', w = v ++ x ∧ Tight k v e' ∧
      x ≠ [] ∧ ∃ op r e'', x = op :: r ∧ precedence? op.kind = some k ∧ Tight (k + 1) r e'' := by
    intro w e h
    by_cases above : k < e.rank
    · exact .inl ⟨h.respects, above, h.spells⟩
    · -- the tree is an operation of the level, and its operator is the last one of the text
      have rank : e.rank = k := Nat.le_antisymm (Nat.le_of_not_lt above) h.rank
      obtain ⟨l, op, r, mem, rfl⟩ := ranked.covers e h.respects rank
      obtain ⟨u, v, rfl, hl, hr⟩ := h.node_parts ranked mem
      exact .inr ⟨u, op :: v, l, rfl, hl, by simp, op, v, r, rfl,
        (ranked.precedence op.kind).1 mem, hr⟩
  obtain ⟨u, ws, hw, ⟨first, hfirst⟩, all⟩ := h.spine last
  have length : w.length = u.length + ws.flatten.length := by rw [hw, List.length_append]
  refine ⟨u, ws.flatten, hw, operand u first hfirst (by omega), ws.flatten, [], by simp,
    ⟨ws, rfl, ?_⟩, rfl⟩
  intro x hx
  obtain ⟨⟨op, r, e', rfl, hop, hr⟩, short⟩ := all x hx
  rw [List.length_cons] at short
  exact ⟨[op], r, rfl, (ops _ _).2 ⟨op, rfl, hop⟩, r, [], by simp,
    operand r e' hr (by omega), rfl⟩

/-- An argument list or a dot and a name. -/
def Suffix (x : List Token) : Prop :=
  (∃ l v r es, x = l :: v ++ [r] ∧ l.kind = .punctuator .leftParen ∧
    r.kind = .punctuator .rightParen ∧ es.length ≤ maxArity ∧
    (es = [] ∧ v = [] ∨ Separated (Tight 0) v es)) ∨
  ∃ t name, x = [t, name] ∧ t.kind = .punctuator .dot ∧ name.kind = .identifier

theorem suffix_of_tight (h : Tight 8 w e) :
    Tight 9 w e ∨ ∃ v x e', w = v ++ x ∧ Tight 8 v e' ∧ x ≠ [] ∧ Suffix x := by
  rcases h.cases_call with nine | ⟨callee, paren, arguments, rfl⟩ | ⟨object, name, rfl⟩
  · exact .inl nine
  · obtain ⟨u, t, v, rfl, hcallee, ht, hparen, few, listed⟩ := h.call_parts
    exact .inr ⟨u, t :: v ++ [paren], callee, by simp, hcallee, by simp,
      .inl ⟨t, v, paren, arguments, rfl, ht, hparen, few, listed⟩⟩
  · obtain ⟨u, t, rfl, hobject, ht, hname⟩ := h.get_parts
    exact .inr ⟨u, [t, name], object, rfl, hobject, by simp, .inr ⟨t, name, rfl, ht, hname⟩⟩

theorem call_of_tight (h : Tight 8 w e) : Fits (Below .call w) (rule .call) w := by
  obtain ⟨u, ws, hw, ⟨first, hfirst⟩, all⟩ := h.spine fun w e h => suffix_of_tight h
  have length : w.length = u.length + ws.flatten.length := by rw [hw, List.length_append]
  have head : Below .call w .primary u := (below_iff rfl rfl).2 ⟨⟨first, hfirst⟩, by omega⟩
  refine ⟨u, ws.flatten, hw, head, ws.flatten, [], by simp, ⟨ws, rfl, ?_⟩, rfl⟩
  intro x hx
  simp only [fits_alt_cons, fits_alt_nil, or_false, fits_seq_sign, fits_seq_opt,
    fits_seq_name, fits_seq_nil, fits_symbol]
  obtain ⟨⟨l, v, r, es, rfl, hl, hr, few, listed⟩ | ⟨t, name, rfl, ht, hname⟩, short⟩ := all x hx
  · refine .inl ⟨l, v ++ [r], by simp, hl, v, [r], rfl, ?_, r, [], rfl, hr, rfl⟩
    rcases listed with ⟨rfl, rfl⟩ | separated
    · exact .inl rfl
    · simp only [List.length_append, List.length_cons] at short
      exact .inr ((below_iff rfl rfl).2 ⟨⟨es, few, separated⟩, by omega⟩)
  · exact .inr ⟨t, [name], rfl, ht, name, [], rfl, hname, rfl⟩

theorem assignment_of_tight (h : Tight 0 w e) :
    Fits (Below .assignment w) (rule .assignment) w := by
  simp only [rule, fits_alt_cons, fits_alt_nil, or_false, fits_seq_opt, fits_seq_symbol,
    fits_seq_sign, fits_seq_name, fits_seq_nil, fits_symbol]
  rcases h.cases_assignment with above | ⟨node, name, value, rfl⟩ | ⟨object, name, value, rfl⟩
  · exact .inr ((below_iff rfl rfl).2 ⟨⟨e, above⟩, by omega⟩)
  · obtain ⟨q, v, rfl, hname, hq, hvalue⟩ := h.assign_parts
    refine .inl ⟨[], _, rfl, .inl rfl, name, _, rfl, hname, q, v, rfl, hq, v, [], by simp,
      (below_iff rfl rfl).2 ⟨⟨value, hvalue⟩, ?_⟩, rfl⟩
    simp only [List.length_cons]
    omega
  · -- what stands before the equals sign is itself the text of a property access
    obtain ⟨u, q, v, rfl, hget, hq, hvalue⟩ := h.set_parts
    obtain ⟨u, t, rfl, hobject, ht, hname⟩ := hget.get_parts
    have length : (u ++ [t, name] ++ q :: v).length = u.length + v.length + 3 := by
      simp only [List.length_append, List.length_cons, List.length_nil]
      omega
    refine .inl ⟨u ++ [t], name :: q :: v, by simp,
      .inr ⟨u, [t], rfl, (below_iff rfl rfl).2 ⟨⟨object, hobject⟩, by omega⟩, t, [], rfl, ht, rfl⟩,
      name, _, rfl, hname, q, v, rfl, hq, v, [], by simp,
      (below_iff rfl rfl).2 ⟨⟨value, hvalue⟩, by omega⟩, rfl⟩

theorem unary_of_tight (h : Tight 7 w e) : Fits (Below .unary w) (rule .unary) w := by
  rcases h.cases_unary with eight | ⟨op, right, rfl⟩
  · exact .inr (.inl ((below_iff rfl rfl).2 ⟨⟨e, eight⟩, by omega⟩))
  · obtain ⟨u, rfl, hop, hright⟩ := h.unary_parts
    refine .inl ⟨[op], u, rfl, fits_prefixOperators.2 ⟨op, rfl, hop⟩, u, [], by simp,
      (below_iff rfl rfl).2 ⟨⟨right, hright⟩, ?_⟩, rfl⟩
    simp only [List.length_cons]
    omega

theorem primary_of_tight (h : Tight 9 w e) : Fits (Below .primary w) (rule .primary) w := by
  have kinds := h.respects
  simp only [rule, fits_alt_cons, fits_alt_nil, or_false, fits_seq_symbol, fits_seq_sign,
    fits_seq_word, fits_seq_name, fits_seq_nil, fits_token, fits_word, fits_name]
  cases e with
  | literal value =>
    obtain ⟨t, rfl, kind⟩ := Expr.spells_literal.1 h.spells
    cases value with
    | bool b => cases b <;> simp [kind, Literal.kind, TokenKind.agrees]
    | _ => simp [kind, Literal.kind, TokenKind.agrees]
  | grouping inner =>
    obtain ⟨l, u, r, rfl, hl, hinner, hr⟩ := h.grouping_parts
    have below : Below .primary (l :: u ++ [r]) .expression u := by
      refine (below_iff rfl rfl).2 ⟨⟨inner, hinner⟩, ?_⟩
      simp only [List.length_append, List.length_cons]
      omega
    have parts := (⟨l, u ++ [r], rfl, hl, u, [r], rfl, below, r, [], rfl, hr, rfl⟩ :
      ∃ t v, l :: u ++ [r] = t :: v ∧ t.kind = .punctuator .leftParen ∧ ∃ u' v',
        v = u' ++ v' ∧ Below .primary (l :: u ++ [r]) .expression u' ∧ ∃ t' v'',
          v' = t' :: v'' ∧ t'.kind = .punctuator .rightParen ∧ v'' = [])
    simp only [parts, true_or, or_true]
  | var node name =>
    simp only [Expr.respects, beq_iff_eq] at kinds
    obtain rfl := Expr.spells_var.1 h.spells
    simp [kinds]
  | thisRef node keyword =>
    simp only [Expr.respects, beq_iff_eq] at kinds
    obtain rfl := Expr.spells_thisRef.1 h.spells
    simp [kinds]
  | superRef node keyword method =>
    simp only [Expr.respects, Bool.and_eq_true, beq_iff_eq] at kinds
    obtain ⟨t, rfl, ht⟩ := Expr.spells_superRef.1 h.spells
    simp [kinds, ht]
  -- operations hold less tightly than what a primary expression is
  | binary l op r | logical l op r =>
    have rank := h.rank
    have := precedence_getD_le op.kind
    simp only [Expr.rank] at rank
    omega
  | _ => exact absurd h.rank (by simp [Expr.rank])

theorem arguments_of_separated {es : List Expr} (few : es.length ≤ maxArity)
    (h : Separated (Tight 0) w es) : Fits (Below .arguments w) (rule .arguments) w := by
  refine (fits_list (P := fun u e => Tight 0 u e ∧ u.length ≤ w.length) ?_).2
    ⟨es, few, h.short (Nat.le_refl _)⟩
  intro u
  rw [fits_symbol, below_iff rfl rfl]
  constructor
  · intro below
    obtain ⟨⟨e, he⟩, short⟩ := below
    exact ⟨e, he, by omega⟩
  · intro text
    obtain ⟨e, he, short⟩ := text
    exact ⟨⟨e, he⟩, by omega⟩

end split

theorem derives_of_expressionText {s : Symbol} {w : List Token} (some : s.height?.isSome)
    (h : expressionText s w) : Derives s w := by
  obtain ⟨or, and, equality, comparison, term, factor, _⟩ := ladder_levels
  obtain ⟨orOps, andOps, equalityOps, comparisonOps, termOps, factorOps⟩ :=
    operators_of_precedence
  refine derives_of_descent (Q := fun s w => s.height?.isSome ∧ expressionText s w)
    expressionMeasure ?_ ⟨some, h⟩
  intro s w h
  obtain ⟨some, text⟩ := h
  -- the operands of a level belong to the next symbol down
  have operand : ∀ {k n : Nat} {s' : Symbol}, s.height? = .some (n + 1) → s'.height? = .some n →
      (∀ u, expressionText s' u = ∃ e, Tight (k + 1) u e) →
      ∀ u e, Tight (k + 1) u e → u.length ≤ w.length → Below s w s' u := by
    intro k n s' high low texts u e he short
    refine (below_iff high low).2 ⟨?_, by omega⟩
    rw [texts]
    exact ⟨e, he⟩
  cases s with
  | expression => exact (below_iff rfl rfl).2 ⟨text, by omega⟩
  | assignment => exact assignment_of_tight text.choose_spec
  | logicOr =>
    exact chain_of_tight or orOps (operand rfl rfl fun _ => rfl) text.choose_spec
  | logicAnd =>
    exact chain_of_tight and andOps (operand rfl rfl fun _ => rfl) text.choose_spec
  | equality =>
    exact chain_of_tight equality equalityOps (operand rfl rfl fun _ => rfl) text.choose_spec
  | comparison =>
    exact chain_of_tight comparison comparisonOps (operand rfl rfl fun _ => rfl)
      text.choose_spec
  | term => exact chain_of_tight term termOps (operand rfl rfl fun _ => rfl) text.choose_spec
  | factor =>
    exact chain_of_tight factor factorOps (operand rfl rfl fun _ => rfl) text.choose_spec
  | unary => exact unary_of_tight text.choose_spec
  | call => exact call_of_tight text.choose_spec
  | arguments => exact arguments_of_separated text.choose_spec.1 text.choose_spec.2
  | primary => exact primary_of_tight text.choose_spec
  | _ => cases some

/-- The lists derived from `expression` are the texts of trees that respect precedence. -/
theorem derives_expression_iff {w : List Token} :
    Derives .expression w ↔ ∃ e, Tight 0 w e := by
  constructor
  · intro h
    exact expressionText_of_derives h
  · intro h
    exact derives_of_expressionText rfl h

end Lox.Grammar
