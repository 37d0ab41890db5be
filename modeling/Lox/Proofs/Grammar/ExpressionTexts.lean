import Lox.Proofs.Grammar.ExpressionReading

/-! # Texts of expressions

  Every text of a tree that respects precedence is read, and yields that tree up to the
  identities of its nodes, provided that what follows cannot go on with it. The loops of the
  grammar are followed from the left: reading the text of a left operand brings a loop to
  the point where it holds that operand and stands before the operator (`Continues`).
-/

namespace Lox.Grammar

/-! ### Taking texts apart -/

theorem precedence_bounds {kind : TokenKind} {p : Nat} (h : precedence? kind = some p) :
    1 ≤ p ∧ p ≤ 6 := by
  unfold precedence? at h
  split at h <;> cases h <;> decide

theorem precedence_getD_le (kind : TokenKind) : (precedence? kind).getD 0 ≤ 6 := by
  cases h : precedence? kind with
  | none => exact Nat.zero_le 6
  | some p => exact (precedence_bounds h).2

namespace Tight

variable {k : Nat} {w : List Token}

theorem grouping_parts {inner : Expr} (h : Tight k w (.grouping inner)) :
    ∃ l u r, w = l :: u ++ [r] ∧ l.kind = .punctuator .leftParen ∧ Tight 0 u inner ∧
      r.kind = .punctuator .rightParen := by
  obtain ⟨l, u, r, hw, hl, hu, hr⟩ := Expr.spells_grouping.1 h.spells
  have parts := h.respects
  rw [Expr.respects] at parts
  exact ⟨l, u, r, hw, hl, ⟨parts, Nat.zero_le _, hu⟩, hr⟩

theorem unary_parts {op : Token} {right : Expr} (h : Tight k w (.unary op right)) :
    ∃ u, w = op :: u ∧ isPrefixOperator op.kind = true ∧ Tight 7 u right := by
  obtain ⟨u, hw, hu⟩ := Expr.spells_unary.1 h.spells
  have parts := h.respects
  simp only [Expr.respects, Bool.and_eq_true, decide_eq_true_eq] at parts
  exact ⟨u, hw, parts.1.1, parts.2, parts.1.2, hu⟩

/-- The converse of `separated_tight`. -/
theorem of_separated {arguments : List Expr}
    (h : Separated (fun u e => e.Spells u) w arguments)
    (respects : Expr.allRespect arguments = true) : Separated (Tight 0) w arguments := by
  induction h with
  | single spells =>
    simp only [Expr.allRespect, Bool.and_true] at respects
    exact .single ⟨respects, Nat.zero_le _, spells⟩
  | cons spells comma _ ih =>
    simp only [Expr.allRespect, Bool.and_eq_true] at respects
    exact .cons ⟨respects.1, Nat.zero_le _, spells⟩ comma (ih respects.2)

theorem call_parts {callee : Expr} {paren : Token} {arguments : List Expr}
    (h : Tight k w (.call callee paren arguments)) :
    ∃ u t v, w = u ++ t :: v ++ [paren] ∧ Tight 8 u callee ∧
      t.kind = .punctuator .leftParen ∧ paren.kind = .punctuator .rightParen ∧
      arguments.length ≤ maxArity ∧
      (arguments = [] ∧ v = [] ∨ Separated (Tight 0) v arguments) := by
  obtain ⟨u, t, v, hw, hu, ht, hv⟩ := Expr.spells_call.1 h.spells
  have parts := h.respects
  simp only [Expr.respects, Bool.and_eq_true, decide_eq_true_eq, beq_iff_eq] at parts
  obtain ⟨⟨⟨⟨rank, respects⟩, hparen⟩, short⟩, all⟩ := parts
  refine ⟨u, t, v, hw, ⟨respects, rank, hu⟩, ht, hparen, short, ?_⟩
  rcases hv with none | separated
  · exact .inl none
  · exact .inr (of_separated separated all)

theorem get_parts {object : Expr} {name : Token} (h : Tight k w (.get object name)) :
    ∃ u t, w = u ++ [t, name] ∧ Tight 8 u object ∧ t.kind = .punctuator .dot ∧
      name.kind = .identifier := by
  obtain ⟨u, t, hw, hu, ht⟩ := Expr.spells_get.1 h.spells
  have parts := h.respects
  simp only [Expr.respects, Bool.and_eq_true, decide_eq_true_eq, beq_iff_eq] at parts
  exact ⟨u, t, hw, ⟨parts.1.2, parts.1.1, hu⟩, ht, parts.2⟩

theorem assign_parts {node : NodeId} {name : Token} {value : Expr}
    (h : Tight k w (.assign node name value)) :
    ∃ t v, w = name :: t :: v ∧ name.kind = .identifier ∧ t.kind = .punctuator .equal ∧
      Tight 0 v value := by
  obtain ⟨t, v, hw, ht, hv⟩ := Expr.spells_assign.1 h.spells
  have parts := h.respects
  simp only [Expr.respects, Bool.and_eq_true, beq_iff_eq] at parts
  exact ⟨t, v, hw, parts.1, ht, parts.2, Nat.zero_le _, hv⟩

/-- An assignment to a property is a property access, an equals sign and a value. -/
theorem set_parts {object value : Expr} {name : Token} (h : Tight k w (.set object name value)) :
    ∃ u q v, w = u ++ q :: v ∧ Tight 8 u (.get object name) ∧ q.kind = .punctuator .equal ∧
      Tight 0 v value := by
  obtain ⟨u, t, q, v, rfl, hu, ht, hq, hv⟩ := Expr.spells_set.1 h.spells
  have parts := h.respects
  simp only [Expr.respects, Bool.and_eq_true, decide_eq_true_eq, beq_iff_eq] at parts
  obtain ⟨⟨⟨rank, respects⟩, hname⟩, hvalue⟩ := parts
  exact ⟨u ++ [t, name], q, v, by simp, tight_get ⟨respects, rank, hu⟩ ht hname, hq,
    hvalue, Nat.zero_le _, hv⟩

theorem node_parts {level : Level} (ranked : level.Ranked k) {l r : Expr} {op : Token}
    (mem : op.kind ∈ level.operators) (h : Tight k w (level.node l op r)) :
    ∃ u v, w = u ++ op :: v ∧ Tight k u l ∧ Tight (k + 1) v r := by
  obtain ⟨u, v, hw, hu, hv⟩ := (ranked.spells l op r w).1 h.spells
  have parts := h.respects
  rw [ranked.respects l op r mem] at parts
  simp only [Bool.and_eq_true, decide_eq_true_eq] at parts
  obtain ⟨⟨⟨left, right⟩, hl⟩, hr⟩ := parts
  exact ⟨u, v, hw, ⟨hl, left, hu⟩, ⟨hr, right, hv⟩⟩

/-! ### What kind of tree it is -/

theorem cases_call {e : Expr} (h : Tight 8 w e) :
    Tight 9 w e ∨ (∃ callee paren arguments, e = .call callee paren arguments) ∨
      ∃ object name, e = .get object name := by
  cases e with
  | call callee paren arguments => exact .inr (.inl ⟨callee, paren, arguments, rfl⟩)
  | get object name => exact .inr (.inr ⟨object, name, rfl⟩)
  | binary l op r | logical l op r =>
    have rank := h.rank
    have := precedence_getD_le op.kind
    simp only [Expr.rank] at rank
    omega
  | unary | assign | set => exact absurd h.rank (by simp [Expr.rank])
  | _ => exact .inl ⟨h.respects, Nat.le_refl 9, h.spells⟩

theorem cases_unary {e : Expr} (h : Tight 7 w e) :
    Tight 8 w e ∨ ∃ op right, e = .unary op right := by
  cases e with
  | unary op right => exact .inr ⟨op, right, rfl⟩
  | binary l op r | logical l op r =>
    have rank := h.rank
    have := precedence_getD_le op.kind
    simp only [Expr.rank] at rank
    omega
  | assign | set => exact absurd h.rank (by simp [Expr.rank])
  | call | get => exact .inl ⟨h.respects, Nat.le_refl 8, h.spells⟩
  | _ => exact .inl ⟨h.respects, by simp [Expr.rank], h.spells⟩

theorem cases_assignment {e : Expr} (h : Tight 0 w e) :
    Tight 1 w e ∨ (∃ node name value, e = .assign node name value) ∨
      ∃ object name value, e = .set object name value := by
  cases e with
  | assign node name value => exact .inr (.inl ⟨node, name, value, rfl⟩)
  | set object name value => exact .inr (.inr ⟨object, name, value, rfl⟩)
  | binary l op r | logical l op r =>
    have parts := h.respects
    simp only [Expr.respects, Bool.and_eq_true] at parts
    have known := precedence_of_fitsBetween parts.1.1.1
    exact .inl ⟨h.respects, (precedence_bounds known).1, h.spells⟩
  | _ => exact .inl ⟨h.respects, by simp [Expr.rank], h.spells⟩

end Tight

/-! ### How expressions start -/

/-- Whether a primary expression may start with a token of this kind. -/
def startsPrimary : TokenKind → Bool
  | .keyword .falseWord => true
  | .keyword .trueWord => true
  | .keyword .nilWord => true
  | .keyword .superWord => true
  | .keyword .thisWord => true
  | .punctuator .leftParen => true
  | .identifier => true
  | .number _ => true
  | .string _ => true
  | _ => false

/-- Whether an expression may start with a token of this kind. -/
def startsExpression (kind : TokenKind) : Bool :=
  startsPrimary kind || isPrefixOperator kind

theorem startsPrimary_literal (value : Literal) : startsPrimary value.kind = true := by
  cases value with
  | bool b => cases b <;> rfl
  | _ => rfl

/-- The text of a primary expression starts with one of the tokens that may start it. -/
theorem Tight.starts_nine {e : Expr} {w : List Token} (h : Tight 9 w e) :
    ∃ t v, w = t :: v ∧ startsPrimary t.kind = true := by
  have kinds := h.respects
  cases e with
  | literal value =>
    obtain ⟨t, rfl, kind⟩ := Expr.spells_literal.1 h.spells
    exact ⟨t, [], rfl, kind ▸ startsPrimary_literal value⟩
  | grouping inner =>
    obtain ⟨l, u, r, rfl, kind, _, _⟩ := Expr.spells_grouping.1 h.spells
    exact ⟨l, u ++ [r], rfl, kind ▸ rfl⟩
  | var node name =>
    simp only [Expr.respects, beq_iff_eq] at kinds
    exact ⟨name, [], Expr.spells_var.1 h.spells, kinds ▸ rfl⟩
  | thisRef node keyword =>
    simp only [Expr.respects, beq_iff_eq] at kinds
    exact ⟨keyword, [], Expr.spells_thisRef.1 h.spells, kinds ▸ rfl⟩
  | superRef node keyword method =>
    simp only [Expr.respects, Bool.and_eq_true, beq_iff_eq] at kinds
    obtain ⟨t, hw, _⟩ := Expr.spells_superRef.1 h.spells
    exact ⟨keyword, [t, method], hw, kinds.1 ▸ rfl⟩
  -- operations hold less tightly
  | binary l op r | logical l op r =>
    have rank := h.rank
    have := precedence_getD_le op.kind
    simp only [Expr.rank] at rank
    omega
  | _ => exact absurd h.rank (by simp [Expr.rank])

theorem Tight.starts_eight {e : Expr} {w : List Token} (h : Tight 8 w e) :
    ∃ t v, w = t :: v ∧ startsPrimary t.kind = true := by
  -- on the length of the text: the text of a callee or object is a proper beginning of it
  induction hn : w.length using Nat.strongRecOn generalizing w e with
  | ind n ih =>
    rcases h.cases_call with nine | ⟨callee, paren, arguments, rfl⟩ | ⟨object, name, rfl⟩
    · exact nine.starts_nine
    · obtain ⟨u, t, v, rfl, hcallee, _⟩ := h.call_parts
      obtain ⟨s, u', rfl, hs⟩ := ih u.length (by rw [← hn]; simp) hcallee rfl
      exact ⟨s, _, rfl, hs⟩
    · obtain ⟨u, t, rfl, hobject, _⟩ := h.get_parts
      obtain ⟨s, u', rfl, hs⟩ := ih u.length (by rw [← hn]; simp) hobject rfl
      exact ⟨s, _, rfl, hs⟩

theorem Tight.starts {e : Expr} {w : List Token} (h : Tight 0 w e) :
    ∃ t v, w = t :: v ∧ startsExpression t.kind = true := by
  have of_call : ∀ {e : Expr} {w : List Token}, Tight 8 w e →
      ∃ t v, w = t :: v ∧ startsExpression t.kind = true := by
    intro e w h
    obtain ⟨t, v, hw, ht⟩ := h.starts_eight
    exact ⟨t, v, hw, by simp [startsExpression, ht]⟩
  have respects := h.respects
  induction hn : w.length using Nat.strongRecOn generalizing w e with
  | ind n ih =>
    -- what stands left of an operator is a shorter text
    have left : ∀ {l : Expr} {u v : List Token} {op : Token}, w = u ++ op :: v →
        l.Spells u → l.respects = true → ∃ t v, w = t :: v ∧ startsExpression t.kind = true := by
      intro l u v op hw hu hl
      obtain ⟨t, u', rfl, ht⟩ := ih u.length (by rw [← hn, hw]; simp) ⟨hl, Nat.zero_le _, hu⟩ hl rfl
      exact ⟨t, _, hw, ht⟩
    cases e with
    | unary op right =>
      obtain ⟨u, hw, hop, _⟩ := h.unary_parts
      exact ⟨op, u, hw, by simp [startsExpression, hop]⟩
    | binary l op r =>
      obtain ⟨u, v, hw, hu, _⟩ := Expr.spells_binary.1 h.spells
      simp only [Expr.respects, Bool.and_eq_true] at respects
      exact left hw hu respects.1.2
    | logical l op r =>
      obtain ⟨u, v, hw, hu, _⟩ := Expr.spells_logical.1 h.spells
      simp only [Expr.respects, Bool.and_eq_true] at respects
      exact left hw hu respects.1.2
    | assign node name value =>
      obtain ⟨t, v, hw, hname, _⟩ := h.assign_parts
      exact ⟨name, t :: v, hw, hname ▸ rfl⟩
    | set object name value =>
      obtain ⟨u, q, v, rfl, hget, _⟩ := h.set_parts
      obtain ⟨t, u', rfl, ht⟩ := of_call hget
      exact ⟨t, _, rfl, ht⟩
    | _ => exact of_call ⟨h.respects, by simp [Expr.rank], h.spells⟩

/-! ### What may follow -/

/-- What may follow an operand of the given rank: no argument list or property name, and no
    operator that holds as tightly as the rank. -/
def Stops (k : Nat) (rest : List Token) : Prop :=
  ∀ t, rest.head? = some t → t.kind ≠ .punctuator .leftParen ∧ t.kind ≠ .punctuator .dot ∧
    ∀ p, precedence? t.kind = some p → p < k

/-- What may follow a whole expression: not an opening parenthesis, a dot, an equals sign, or
    a binary or logical operator. -/
def Separates (rest : List Token) : Prop :=
  ∀ t, rest.head? = some t → t.kind ≠ .punctuator .leftParen ∧ t.kind ≠ .punctuator .dot ∧
    t.kind ≠ .punctuator .equal ∧ precedence? t.kind = none

theorem Stops.mono {j k : Nat} {rest : List Token} (h : Stops j rest) (le : j ≤ k) :
    Stops k rest := by
  intro t ht
  obtain ⟨paren, dot, below⟩ := h t ht
  exact ⟨paren, dot, fun p hp => Nat.lt_of_lt_of_le (below p hp) le⟩

theorem Separates.stops {rest : List Token} (h : Separates rest) (k : Nat) : Stops k rest := by
  intro t ht
  obtain ⟨paren, dot, _, none⟩ := h t ht
  refine ⟨paren, dot, fun p hp => ?_⟩
  rw [none] at hp
  cases hp

/-- After a left operand stands an operator of no higher precedence. -/
theorem stops_operator {level : Level} {k : Nat} (ranked : level.Ranked k) {op : Token}
    (mem : op.kind ∈ level.operators) (rest : List Token) : Stops (k + 1) (op :: rest) := by
  intro t ht
  cases ht
  have known := (ranked.precedence op.kind).1 mem
  refine ⟨?_, ?_, ?_⟩
  · intro kind
    rw [kind] at known
    cases known
  · intro kind
    rw [kind] at known
    cases known
  · intro p hp
    rw [known] at hp
    cases hp
    omega

/-- A token of a kind that no expression goes on with. -/
theorem separates_cons {t : Token} {kind : TokenKind} (rest : List Token) (ht : t.kind = kind)
    (h : kind ≠ .punctuator .leftParen ∧ kind ≠ .punctuator .dot ∧
      kind ≠ .punctuator .equal ∧ precedence? kind = none) : Separates (t :: rest) := by
  intro t' ht'
  cases ht'
  rwa [ht]

/-! ### Primary expressions and calls -/

/-- Texts of at most `n` tokens are read as nested expressions. -/
def ReadsNested (expression : Parser Expr) (n : Nat) : Prop :=
  ∀ e w rest, Tight 0 w e → w.length ≤ n → Separates rest →
    Takes expression w rest fun e' => e'.bare = e.bare

section completeness

variable {expression : Parser Expr} {n : Nat}

theorem takes_primary (nested : ReadsNested expression n) {e : Expr} {w : List Token}
    (h : Tight 9 w e) (short : w.length ≤ n + 1) (rest : List Token) :
    Takes (primary expression) w rest fun e' => e'.bare = e.bare := by
  have kinds := h.respects
  cases e with
  | literal value =>
    obtain ⟨t, rfl, kind⟩ := Expr.spells_literal.1 h.spells
    have chosen : primaryRule? expression t = some (pure (.literal value)) := by
      unfold primaryRule?
      rw [kind]
      cases value with
      | bool b => cases b <;> rfl
      | _ => rfl
    exact takes_select chosen (.pure _ rfl)
  | grouping inner =>
    obtain ⟨l, u, r, rfl, hl, hinner, hr⟩ := h.grouping_parts
    have chosen : primaryRule? expression l = some (groupingRule expression) := by
      unfold primaryRule?
      rw [hl]
    refine takes_select chosen ?_
    -- without its parentheses the text is short enough for a nested expression
    have inside : u.length ≤ n := by
      simp only [List.length_append, List.length_cons, List.length_nil] at short
      omega
    refine (nested inner u ([r] ++ rest) hinner inside
      (separates_cons rest hr (by decide))).bind fun inner' hbare => ?_
    refine (takes_expect rest (TokenKind.agrees_punctuator.2 hr)).bind_last fun _ _ => ?_
    exact .pure _ (by simp only [Expr.bare, hbare])
  | var node name =>
    simp only [Expr.respects, beq_iff_eq] at kinds
    obtain rfl := Expr.spells_var.1 h.spells
    have chosen : primaryRule? expression name =
        some (do return .var (← freshNode) name) := by
      unfold primaryRule?
      rw [kinds]
    refine takes_select chosen ((takes_freshNode rest).bind_last fun _ _ => ?_)
    exact .pure _ (by simp only [Expr.bare])
  | thisRef node keyword =>
    simp only [Expr.respects, beq_iff_eq] at kinds
    obtain rfl := Expr.spells_thisRef.1 h.spells
    have chosen : primaryRule? expression keyword =
        some (do return .thisRef (← freshNode) keyword) := by
      unfold primaryRule?
      rw [kinds]
    refine takes_select chosen ((takes_freshNode rest).bind_last fun _ _ => ?_)
    exact .pure _ (by simp only [Expr.bare])
  | superRef node keyword method =>
    simp only [Expr.respects, Bool.and_eq_true, beq_iff_eq] at kinds
    obtain ⟨t, rfl, ht⟩ := Expr.spells_superRef.1 h.spells
    have chosen : primaryRule? expression keyword = some (superRule keyword) := by
      unfold primaryRule?
      rw [kinds.1]
    refine takes_select chosen ?_
    refine (takes_expect ([method] ++ rest) (TokenKind.agrees_punctuator.2 ht)).bind
      (v := [method]) fun _ _ => ?_
    refine (takes_expect rest (TokenKind.agrees_identifier.2 kinds.2)).bind_last fun m hm => ?_
    subst hm
    refine (takes_freshNode rest).bind_last fun _ _ => ?_
    exact .pure _ (by simp only [Expr.bare])
  | binary l op r | logical l op r =>
    have rank := h.rank
    have := precedence_getD_le op.kind
    simp only [Expr.rank] at rank
    omega
  | _ => exact absurd h.rank (by simp [Expr.rank])

theorem takes_argument (nested : ReadsNested expression n) {count : Nat}
    (few : count < maxArity) {e : Expr} {w rest : List Token} (h : Tight 0 w e)
    (short : w.length ≤ n) (separates : Separates rest) :
    Takes (argument expression count) w rest fun e' => e'.bare = e.bare := by
  have plain : argument expression count = expression := by
    unfold argument
    rw [if_neg (by omega)]
  rw [plain]
  exact nested e w rest h short separates

theorem takes_callRule (nested : ReadsNested expression n) {callee callee' : Expr}
    (hcallee : callee'.bare = callee.bare) {paren : Token} {arguments : List Expr}
    {v : List Token} (hparen : paren.kind = .punctuator .rightParen)
    (few : arguments.length ≤ maxArity)
    (listed : arguments = [] ∧ v = [] ∨ Separated (Tight 0) v arguments)
    (short : v.length ≤ n) (rest : List Token) :
    Takes (callRule expression callee') (v ++ [paren]) rest
      fun e => e.bare = (Expr.call callee paren arguments).bare := by
  have items : Takes (itemsBeforeParen (argument expression)) v (paren :: rest)
      fun bs => List.Forall₂ (fun a b => b.bare = a.bare) arguments bs := by
    have listed_short : arguments = [] ∧ v = [] ∨
        Separated (fun u e => Tight 0 u e ∧ u.length ≤ n) v arguments :=
      listed.imp_right fun separated => separated.short short
    refine takes_itemsBeforeParen hparen ?_ ?_ listed_short few
    · -- the list is not taken for an empty one
      intro u e he
      obtain ⟨t, u', hu, ht⟩ := he.1.starts
      refine ⟨t, u', hu, fun kind => ?_⟩
      rw [kind] at ht
      cases ht
    · -- after an argument stands the parenthesis or a comma, and neither goes on with it
      intro count u e follow below he hfollow
      refine takes_argument nested below he.1 he.2 ?_
      rcases hfollow with rfl | ⟨t, v', rfl, comma⟩
      · exact separates_cons rest hparen (by decide)
      · exact separates_cons v' comma (by decide)
  refine Takes.bind items fun arguments' hall => ?_
  refine (takes_expect rest (TokenKind.agrees_punctuator.2 hparen)).bind_last fun p hp => ?_
  subst hp
  exact .pure _ (by simp only [Expr.bare, hcallee, Expr.bareAll_eq_of_forall₂ hall])

theorem takes_propertyRule {object object' : Expr} (hobject : object'.bare = object.bare)
    {name : Token} (hname : name.kind = .identifier) (rest : List Token) :
    Takes (propertyRule object') [name] rest
      fun e => e.bare = (Expr.get object name).bare := by
  refine (takes_expect rest (TokenKind.agrees_identifier.2 hname)).bind_last fun t ht => ?_
  subst ht
  exact .pure _ (by simp only [Expr.bare, hobject])

/-! ### Loops -/

/-- On the text of `e` followed by `rest`, the parser `p` comes to the point where its loop
    holds `e`, up to the identities of nodes, and has `rest` before it. The loop may then
    still make as many rounds as there are tokens. -/
def Continues (p : Parser Expr) (loop : Nat → Expr → Parser Expr) (w : List Token) (e : Expr)
    (rest : List Token) : Prop :=
  ∀ recorded fresh, ∃ bound e' fresh', rest.length ≤ bound ∧ e'.bare = e.bare ∧
    p ⟨w ++ rest, recorded, fresh⟩ = loop bound e' ⟨rest, recorded, fresh'⟩

/-- Before its first round a loop holds what was read first. -/
theorem Continues.first {first : Parser Expr} {loop : Nat → Expr → Parser Expr}
    {w rest : List Token} {e : Expr} (h : Takes first w rest fun e' => e'.bare = e.bare) :
    Continues (first >>= fun e => remaining >>= fun bound => loop bound e) loop w e rest := by
  intro recorded fresh
  obtain ⟨e', fresh', run, hbare⟩ := h recorded fresh
  refine ⟨rest.length, e', fresh', Nat.le_refl _, hbare, ?_⟩
  rw [bind_of_ok run]
  rfl

/-- One round of a loop: a token is chosen and its rule makes a new expression of the one
    that is held. -/
theorem Continues.round {p : Parser Expr} {loop : Nat → Expr → Parser Expr}
    {w v rest : List Token} {l e : Expr} {t : Token}
    (before : Continues p loop w l (t :: v ++ rest))
    (round : ∀ bound l', l'.bare = l.bare → ∃ rule : Parser Expr,
      Takes rule v rest (fun e' => e'.bare = e.bare) ∧
      ∀ s, loop (bound + 1) l' { s with rest := t :: s.rest } = (rule >>= loop bound) s) :
    Continues p loop (w ++ t :: v) e rest := by
  intro recorded fresh
  obtain ⟨bound, l', fresh₁, long, hl, run⟩ := before recorded fresh
  -- there is a token left, and so there is a round left
  rw [List.cons_append, List.length_cons, List.length_append] at long
  obtain ⟨bound, rfl⟩ : ∃ b, bound = b + 1 := ⟨bound - 1, by omega⟩
  obtain ⟨rule, taken, step⟩ := round bound l' hl
  obtain ⟨e', fresh₂, run', he⟩ := taken recorded fresh₁
  refine ⟨bound, e', fresh₂, by omega, he, ?_⟩
  rw [List.append_assoc, run]
  exact (step ⟨v ++ rest, recorded, fresh₁⟩).trans (bind_of_ok run')

/-- A loop that cannot go on yields what it holds. -/
theorem Continues.last {p : Parser Expr} {loop : Nat → Expr → Parser Expr}
    {w rest : List Token} {e : Expr} (h : Continues p loop w e rest)
    (stop : ∀ bound e' s, s.rest = rest → loop bound e' s = .ok e' s) :
    Takes p w rest fun e' => e'.bare = e.bare := by
  intro recorded fresh
  obtain ⟨bound, e', fresh', _, he, run⟩ := h recorded fresh
  exact ⟨e', fresh', by rw [run, stop bound e' _ rfl], he⟩

/-! ### Calls and prefixed operators -/

theorem continues_call (nested : ReadsNested expression n) {e : Expr} {w : List Token}
    (h : Tight 8 w e) (short : w.length ≤ n + 1) (rest : List Token) :
    Continues (call expression) (suffixes expression) w e rest := by
  -- on the length of the text: the loop holds the callee or object before its last round
  induction hn : w.length using Nat.strongRecOn generalizing w e rest with
  | ind m ih =>
    rcases h.cases_call with nine | ⟨callee, paren, arguments, rfl⟩ | ⟨object, name, rfl⟩
    · exact .first (takes_primary nested nine short rest)
    · obtain ⟨u, t, v, rfl, hcallee, ht, hparen, few, listed⟩ := h.call_parts
      simp only [List.length_append, List.length_cons, List.length_nil] at short hn
      have before := ih u.length (by omega) hcallee (by omega) (t :: (v ++ [paren]) ++ rest) rfl
      have whole := before.round (e := .call callee paren arguments) fun bound l' hl =>
        ⟨callRule expression l', takes_callRule nested hl hparen few listed (by omega) rest, ?_⟩
      · simpa using whole
      · intro s
        simp only [suffixes, select, suffixRule?, ht]
        rfl
    · obtain ⟨u, t, rfl, hobject, ht, hname⟩ := h.get_parts
      simp only [List.length_append, List.length_cons, List.length_nil] at short hn
      have before := ih u.length (by omega) hobject (by omega) (t :: [name] ++ rest) rfl
      refine before.round fun bound l' hl =>
        ⟨propertyRule l', takes_propertyRule hl hname rest, ?_⟩
      intro s
      simp only [suffixes, select, suffixRule?, ht]
      rfl

theorem suffixes_stop {rest : List Token} {k : Nat} (stops : Stops k rest) (bound : Nat)
    (e : Expr) (s : State) (hs : s.rest = rest) : suffixes expression bound e s = .ok e s := by
  cases bound with
  | zero => rfl
  | succ bound =>
    rw [suffixes, select_otherwise]
    · rfl
    · intro t ht
      rw [hs] at ht
      obtain ⟨paren, dot, _⟩ := stops t ht
      unfold suffixRule?
      split
      · next kind => exact absurd kind paren
      · next kind => exact absurd kind dot
      · rfl

theorem takes_call (nested : ReadsNested expression n) {e : Expr} {w rest : List Token}
    {k : Nat} (h : Tight 8 w e) (short : w.length ≤ n + 1) (stops : Stops k rest) :
    Takes (call expression) w rest fun e' => e'.bare = e.bare :=
  (continues_call nested h short rest).last (suffixes_stop stops)

/-- A token that may start a primary expression is no operator before an operand. -/
theorem not_prefix_of_startsPrimary {kind : TokenKind} (h : startsPrimary kind = true) :
    isPrefixOperator kind = false := by
  unfold startsPrimary at h
  split at h
  all_goals first | rfl | cases h

theorem takes_unary (nested : ReadsNested expression n) {e : Expr} {w rest : List Token}
    {k : Nat} (h : Tight 7 w e) (short : w.length ≤ n + 1) (stops : Stops k rest) (bound : Nat)
    (enough : w.length ≤ bound) :
    Takes (unary expression bound) w rest fun e' => e'.bare = e.bare := by
  induction bound generalizing w e with
  | zero =>
    obtain ⟨t, v, rfl, _⟩ := (h.mono (Nat.zero_le 7)).starts
    cases enough
  | succ bound ih =>
    rcases h.cases_unary with eight | ⟨op, right, rfl⟩
    · refine takes_select_otherwise ?_ (takes_call nested eight short stops)
      -- what comes first is no operator
      intro t ht
      obtain ⟨t', v, rfl, starts⟩ := eight.starts_eight
      cases ht
      rw [not_prefix_of_startsPrimary starts]
      rfl
    · obtain ⟨u, rfl, hop, hright⟩ := h.unary_parts
      rw [List.length_cons] at short enough
      refine takes_select (by rw [if_pos hop]) ?_
      refine (ih hright (by omega) (by omega)).bind_last fun right' hbare => ?_
      exact .pure _ (by simp only [Expr.bare, hbare])

/-! ### Levels of operators and assignments -/

/-- A level reads the texts of its trees if the next tighter ones do. -/
theorem continues_level {level : Level} {k : Nat} (ranked : level.Ranked k)
    {operand : Parser Expr}
    (tighter : ∀ e w rest, Tight (k + 1) w e → w.length ≤ n + 1 → Stops (k + 1) rest →
      Takes operand w rest fun e' => e'.bare = e.bare)
    {e : Expr} {w rest : List Token} (h : Tight k w e) (short : w.length ≤ n + 1)
    (stops : Stops (k + 1) rest) :
    Continues (level.parser operand) (level.chain operand) w e rest := by
  -- on the length of the text: the loop holds the left operand before its last round, and the
  -- operator that follows it ends the operands inside
  induction hn : w.length using Nat.strongRecOn generalizing w e rest with
  | ind m ih =>
    by_cases above : k < e.rank
    · exact .first (tighter e w rest ⟨h.respects, above, h.spells⟩ short stops)
    · have rank : e.rank = k := Nat.le_antisymm (Nat.le_of_not_lt above) h.rank
      obtain ⟨l, op, r, mem, rfl⟩ := ranked.covers e h.respects rank
      obtain ⟨u, v, rfl, hl, hr⟩ := h.node_parts ranked mem
      simp only [List.length_append, List.length_cons] at short hn
      have before := ih u.length (by omega) hl (by omega)
        (stops_operator ranked mem (v ++ rest)) rfl
      refine before.round fun bound l' hbare =>
        ⟨operand >>= fun right => pure (level.node l' op right), ?_, ?_⟩
      · refine (tighter r v rest hr (by omega) stops).bind_last fun r' hr' => ?_
        exact .pure _ (by rw [ranked.bare, ranked.bare, hbare, hr'])
      · intro s
        simp only [Level.chain, select, if_pos mem, bind_assoc, pure_bind]

theorem chain_stop {level : Level} {k : Nat} (ranked : level.Ranked k) {operand : Parser Expr}
    {rest : List Token} (stops : Stops k rest) (bound : Nat) (e : Expr) (s : State)
    (hs : s.rest = rest) : level.chain operand bound e s = .ok e s := by
  cases bound with
  | zero => rfl
  | succ bound =>
    rw [Level.chain, select_otherwise]
    · rfl
    · intro t ht
      rw [hs] at ht
      obtain ⟨_, _, below⟩ := stops t ht
      refine if_neg fun mem => ?_
      have := below k ((ranked.precedence t.kind).1 mem)
      omega

theorem takes_operation (nested : ReadsNested expression n) {ls : List Level} {k : Nat}
    (ladder : Ladder k ls) (e : Expr) (w rest : List Token) (h : Tight k w e)
    (short : w.length ≤ n + 1) (stops : Stops k rest) :
    Takes (operation expression ls) w rest fun e' => e'.bare = e.bare := by
  induction ls generalizing k e w rest with
  | nil =>
    obtain rfl : k = 7 := ladder
    refine (takes_remaining (w ++ rest)).bind_still fun bound hbound => ?_
    exact takes_unary nested h short stops bound (by rw [hbound]; simp)
  | cons level tighter ih =>
    obtain ⟨ranked, ladder⟩ := ladder
    have loop := continues_level ranked (ih ladder) h short (stops.mono (Nat.le_succ k))
    exact loop.last (chain_stop ranked stops)

/-- An equals sign ends the target of an assignment. -/
theorem stops_equals {q : Token} (hq : q.kind = .punctuator .equal) (rest : List Token) :
    Stops 1 (q :: rest) := by
  intro t ht
  cases ht
  rw [hq]
  exact ⟨by decide, by decide, fun p hp => nomatch hp⟩

/-- A target, an equals sign and a value, if the target can be assigned to. -/
theorem takes_assignment_to (nested : ReadsNested expression n) {target value e : Expr}
    {u v rest : List Token} {q : Token} (htarget : Tight 1 u target)
    (hq : q.kind = .punctuator .equal) (hvalue : Tight 0 v value)
    (short : (u ++ q :: v).length ≤ n + 1) (separates : Separates rest)
    (made : ∀ target' value' : Expr, target'.bare = target.bare → value'.bare = value.bare →
      Takes (assignTo target' q value') [] rest fun e' => e'.bare = e.bare) :
    Takes (assignment expression) (u ++ q :: v) rest fun e' => e'.bare = e.bare := by
  rw [List.length_append, List.length_cons] at short
  refine (takes_operation nested ladder_levels target u (q :: v ++ rest) htarget (by omega)
    (stops_equals hq _)).bind fun target' hbare => ?_
  refine (takes_accept? (.punctuator .equal) (v ++ rest)
    (TokenKind.agrees_punctuator.2 hq)).bind (v := v) fun o ho => ?_
  subst ho
  refine (nested value v rest hvalue ?_ separates).bind_last fun value' hvalue' => ?_
  · obtain ⟨t, u', rfl, _⟩ := (htarget.mono (Nat.zero_le 1)).starts
    rw [List.length_cons] at short
    omega
  · exact made target' value' hbare hvalue'

theorem takes_assignment (nested : ReadsNested expression n) {e : Expr} {w rest : List Token}
    (h : Tight 0 w e) (short : w.length ≤ n + 1) (separates : Separates rest) :
    Takes (assignment expression) w rest fun e' => e'.bare = e.bare := by
  rcases h.cases_assignment with above | ⟨node, name, value, rfl⟩ | ⟨object, name, value, rfl⟩
  · -- no assignment, as no equals sign follows
    refine (takes_operation nested ladder_levels e w rest above short
      (separates.stops 1)).bind_last fun e' hbare => ?_
    refine Takes.bind_still (w := []) (takes_accept?_none (.punctuator .equal) ?_) fun o ho => ?_
    · intro t ht
      rw [← Bool.not_eq_true, TokenKind.agrees_punctuator]
      exact (separates t ht).2.2.1
    · subst ho
      exact .pure e' hbare
  · obtain ⟨q, v, rfl, hname, hq, hvalue⟩ := h.assign_parts
    have target : Tight 1 [name] (.var node name) := (tight_var node hname).mono (by omega)
    refine takes_assignment_to (u := [name]) nested target hq hvalue short separates ?_
    intro target' value' htarget' hvalue'
    -- the target is read as a variable first, whose identity the assignment does not keep
    cases target' with
    | var node' name' =>
      simp only [Expr.bare, Expr.var.injEq, true_and] at htarget'
      subst htarget'
      refine (takes_freshNode rest).bind_last fun _ _ => ?_
      exact .pure _ (by simp only [Expr.bare, hvalue'])
    | _ => simp [Expr.bare] at htarget'
  · obtain ⟨u, q, v, rfl, hget, hq, hvalue⟩ := h.set_parts
    refine takes_assignment_to nested (hget.mono (by omega)) hq hvalue short separates ?_
    intro target' value' htarget' hvalue'
    cases target' with
    | get object' name' =>
      simp only [Expr.bare, Expr.get.injEq] at htarget'
      obtain ⟨hobject, rfl⟩ := htarget'
      exact .pure _ (by simp only [Expr.bare, hobject, hvalue'])
    | _ => simp [Expr.bare] at htarget'

end completeness

/-- With enough depth for its tokens, the text of an expression is read. -/
theorem readsNested_expression (depth : Nat) : ReadsNested (expression depth) depth := by
  induction depth with
  | zero =>
    intro e w rest h short _
    obtain ⟨t, v, rfl, _⟩ := h.starts
    cases short
  | succ depth ih =>
    intro e w rest h short separates
    exact takes_assignment ih h short separates

theorem takes_nestedExpression {e : Expr} {w rest : List Token} (h : Tight 0 w e)
    (separates : Separates rest) :
    Takes nestedExpression w rest fun e' => e'.bare = e.bare := by
  refine (takes_remaining (w ++ rest)).bind_still fun depth hdepth => ?_
  exact readsNested_expression depth e w rest h (by rw [hdepth]; simp) separates

/-! ### Texts and trees -/

/-- An operator with a precedence is no end token. -/
theorem ne_eof_of_fitsBetween {op : Token} {l r : Nat} (h : Expr.fitsBetween op l r = true) :
    .eof ≠ op.kind := by
  intro kind
  simp [Expr.fitsBetween, ← kind, precedence?] at h

mutual

/-- No token of an expression is an end token. -/
theorem eof_not_mem_kinds : ∀ (e : Expr), e.respects = true →
    .eof ∉ e.layout.map Slot.kind
  | .literal value, _ => by
    cases value with
    | bool b => cases b <;> simp [Expr.layout, Literal.kind]
    | _ => simp [Expr.layout, Literal.kind]
  -- what the tree keeps has the kind it should have, and the rest of the layout is fixed
  | .grouping inner, respects => by
    have ih := eof_not_mem_kinds inner
    simp_all [Expr.respects, Expr.layout]
  | .unary op right, respects => by
    have ih := eof_not_mem_kinds right
    have operator : .eof ≠ op.kind := by
      intro kind
      simp [Expr.respects, ← kind, isPrefixOperator] at respects
    simp_all [Expr.respects, Expr.layout]
  | .binary l op r, respects => by
    have ihl := eof_not_mem_kinds l
    have ihr := eof_not_mem_kinds r
    simp only [Expr.respects, Bool.and_eq_true] at respects
    have operator := ne_eof_of_fitsBetween respects.1.1.1
    simp_all [Expr.layout]
  | .logical l op r, respects => by
    have ihl := eof_not_mem_kinds l
    have ihr := eof_not_mem_kinds r
    simp only [Expr.respects, Bool.and_eq_true] at respects
    have operator := ne_eof_of_fitsBetween respects.1.1.1
    simp_all [Expr.layout]
  | .var _ name, respects => by
    simp_all [Expr.respects, Expr.layout]
  | .assign _ name value, respects => by
    have ih := eof_not_mem_kinds value
    simp_all [Expr.respects, Expr.layout]
  | .call callee paren arguments, respects => by
    have ih := eof_not_mem_kinds callee
    have ihs := eof_not_mem_kindsAll arguments
    simp_all [Expr.respects, Expr.layout]
  | .get object name, respects => by
    have ih := eof_not_mem_kinds object
    simp_all [Expr.respects, Expr.layout]
  | .set object name value, respects => by
    have ihl := eof_not_mem_kinds object
    have ihr := eof_not_mem_kinds value
    simp_all [Expr.respects, Expr.layout]
  | .thisRef _ keyword, respects => by
    simp_all [Expr.respects, Expr.layout]
  | .superRef _ keyword method, respects => by
    simp_all [Expr.respects, Expr.layout]

/-- No token of arguments is an end token. -/
theorem eof_not_mem_kindsAll : ∀ (es : List Expr), Expr.allRespect es = true →
    .eof ∉ (Expr.layoutAll es).map Slot.kind
  | [], _ => by simp [Expr.layoutAll]
  | [e], respects => by
    have ih := eof_not_mem_kinds e
    simp_all [Expr.allRespect, Expr.layoutAll]
  | e :: next :: rest, respects => by
    have ih := eof_not_mem_kinds e
    have ihs := eof_not_mem_kindsAll (next :: rest)
    simp_all [Expr.allRespect, Expr.layoutAll]

end

/-- The tokens before the end token of a text that is followed by others. -/
theorem bodyOf_append {e : Expr} {w : List Token} (h : Tight 0 w e) (rest : List Token) :
    bodyOf (w ++ rest) = w ++ bodyOf rest := by
  have inside : ∀ t ∈ w, (!t.isEof) = true := by
    intro t mem
    have kind : t.kind ∈ w.map (·.kind) := List.mem_map_of_mem mem
    rw [← h.spells.kinds_eq] at kind
    have other : t.kind ≠ .eof := fun eof => eof_not_mem_kinds e h.respects (eof ▸ kind)
    unfold Token.isEof
    cases hk : t.kind with
    | eof => exact absurd hk other
    | _ => rfl
  unfold bodyOf
  rw [List.takeWhile_append_of_pos inside]

/-- What cannot go on with an expression still cannot when cut off at its end token. -/
theorem Separates.bodyOf {rest : List Token} (h : Separates rest) :
    Separates (Grammar.bodyOf rest) := by
  intro t ht
  refine h t ?_
  cases rest with
  | nil => exact ht
  | cons first rest =>
    unfold Grammar.bodyOf at ht
    rw [List.takeWhile_cons] at ht
    split at ht
    · exact ht
    · cases ht

/-- A run that yields a tree has read a text of that tree. -/
theorem tight_of_readExpression {fresh : NodeId} {tokens : List Token} {e : Expr}
    (h : (readExpression fresh tokens).value = some e) :
    ∃ text s, nestedExpression (start fresh tokens) = .ok e s ∧
      bodyOf tokens = text ++ s.rest ∧ Tight 0 text e := by
  unfold readExpression at h
  cases run : nestedExpression (start fresh tokens) with
  | error error s =>
    rw [run] at h
    cases h
  | ok e' s =>
    rw [run] at h
    simp only [Option.ite_none_right_eq_some, Option.some.injEq, List.isEmpty_iff] at h
    obtain ⟨quiet, rfl⟩ := h
    obtain ⟨text, split, tight⟩ := reads_nestedExpression.takes run quiet
    exact ⟨text, s, rfl, split, tight⟩

/-- A text of a tree that nothing goes on with is read as that tree. -/
theorem readExpression_of_tight (fresh : NodeId) {e : Expr} {text rest : List Token}
    (h : Tight 0 text e) (separates : Separates rest) :
    ∃ e' s, nestedExpression (start fresh (text ++ rest)) = .ok e' s ∧
      (readExpression fresh (text ++ rest)).value = some e' ∧
      e'.bare = e.bare ∧ s.rest = bodyOf rest := by
  obtain ⟨e', fresh', run, hbare⟩ := takes_nestedExpression h separates.bodyOf [] fresh
  have started : nestedExpression (start fresh (text ++ rest)) =
      .ok e' ⟨bodyOf rest, [], fresh'⟩ := by
    rw [start, bodyOf_append h, run]
  refine ⟨e', ⟨bodyOf rest, [], fresh'⟩, started, ?_, hbare, rfl⟩
  rw [readExpression, started]
  rfl

/-- Reading an expression undoes writing it. What is read respects precedence and its tokens
    are those that were taken; and what respects precedence is read from its tokens, in
    front of anything that cannot go on with it, up to the identities of nodes. So no two
    trees that respect precedence have the same text. -/
theorem readExpression_inverts_layout :
    (∀ (fresh : NodeId) (tokens : List Token) (e : Expr),
      (readExpression fresh tokens).value = some e →
      e.respects = true ∧ ∃ text s, nestedExpression (start fresh tokens) = .ok e s ∧
        bodyOf tokens = text ++ s.rest ∧ e.kinds = text.map (·.kind) ∧ e.Spells text) ∧
    (∀ (fresh : NodeId) (e : Expr) (text rest : List Token), e.respects = true →
      e.Spells text → Separates rest →
      ∃ e' s, nestedExpression (start fresh (text ++ rest)) = .ok e' s ∧
        (readExpression fresh (text ++ rest)).value = some e' ∧
        e'.bare = e.bare ∧ s.rest = bodyOf rest) ∧
    (∀ (e₁ e₂ : Expr) (text : List Token), e₁.respects = true → e₂.respects = true →
      e₁.Spells text → e₂.Spells text → e₁.bare = e₂.bare) := by
  refine ⟨?_, ?_, ?_⟩
  · intro fresh tokens e h
    obtain ⟨text, s, run, split, tight⟩ := tight_of_readExpression h
    exact ⟨tight.respects, text, s, run, split, tight.spells.kinds_eq, tight.spells⟩
  · intro fresh e text rest respects spells separates
    exact readExpression_of_tight fresh ⟨respects, Nat.zero_le _, spells⟩ separates
  · intro e₁ e₂ text respects₁ respects₂ spells₁ spells₂
    have alone : Separates [] := fun t ht => nomatch ht
    -- both are what is read from the text
    obtain ⟨e, _, _, read₁, bare₁, _⟩ :=
      readExpression_of_tight 0 ⟨respects₁, Nat.zero_le _, spells₁⟩ alone
    obtain ⟨e', _, _, read₂, bare₂, _⟩ :=
      readExpression_of_tight 0 ⟨respects₂, Nat.zero_le _, spells₂⟩ alone
    rw [read₁] at read₂
    cases read₂
    rw [← bare₁, bare₂]

/-- The theorem at `a.b = c = -d * f(d)`, in front of a semicolon. -/
theorem readExpression_inverts_layout_chain :
    let name := fun lexeme : String => (⟨.identifier, lexeme, 1⟩ : Token)
    let sign := fun p : Punctuator => (⟨.punctuator p, p.spelling, 1⟩ : Token)
    let e : Expr := .set (.var 7 (name "a")) (name "b") (.assign 7 (name "c")
      (.binary (.unary (sign .minus) (.var 7 (name "d"))) (sign .star)
        (.call (.var 7 (name "f")) (sign .rightParen) [.var 7 (name "d")])))
    let text := [name "a", sign .dot, name "b", sign .equal, name "c", sign .equal,
      sign .minus, name "d", sign .star, name "f", sign .leftParen, name "d",
      sign .rightParen]
    e.respects = true ∧ e.Spells text ∧ Separates [sign .semicolon] ∧
      ∃ e' s, nestedExpression (start 0 (text ++ [sign .semicolon])) = .ok e' s ∧
        (readExpression 0 (text ++ [sign .semicolon])).value = some e' ∧
        e'.bare = e.bare ∧ s.rest = [sign .semicolon] := by
  intro name sign e text
  have respects : e.respects = true := by decide
  have spells : e.Spells text := by
    simp [Expr.Spells, Expr.layout, Expr.layoutAll, Slot.FilledBy, e, text, name, sign]
  have separates : Separates [sign .semicolon] := by
    intro t ht
    cases ht
    decide
  exact ⟨respects, spells, separates,
    readExpression_inverts_layout.2.1 0 e text [sign .semicolon] respects spells separates⟩

end Lox.Grammar
