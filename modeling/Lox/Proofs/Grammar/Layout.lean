import Lox.Proofs.Grammar.Runs

/-! # Expressions as lists of tokens

  A tree keeps some of the tokens it was read from (names, operators, keywords, the
  parenthesis that closes a call) and lets go of others (parentheses, commas, dots, equals
  signs, and the literals, of which it keeps the value). `Expr.layout` puts the latter back:
  it lists, from left to right, what is known of each token. A list of tokens spells a tree
  if it fills the layout place by place.

  A tree respects precedence if every operand holds together at least as tightly as its
  place demands: `assignment < or < and < equality < comparison < term < factor < unary <
  call < primary`, numbered from 0 to 9.
-/

namespace Lox

namespace Grammar

/-- How tightly a binary or logical operator holds its operands. -/
def precedence? : TokenKind → Option Nat
  | .keyword .orWord => some 1
  | .keyword .andWord => some 2
  | .punctuator .bangEqual => some 3
  | .punctuator .equalEqual => some 3
  | .punctuator .greater => some 4
  | .punctuator .greaterEqual => some 4
  | .punctuator .less => some 4
  | .punctuator .lessEqual => some 4
  | .punctuator .minus => some 5
  | .punctuator .plus => some 5
  | .punctuator .star => some 6
  | .punctuator .slash => some 6
  | _ => none

/-- What is known of one token of an expression. -/
inductive Slot where
  /-- The tree keeps the token itself. -/
  | kept (token : Token)
  /-- The tree lets go of the token; only its kind is known. -/
  | filler (kind : TokenKind)

namespace Slot

/-- The kind of the token that belongs here. -/
def kind : Slot → TokenKind
  | kept t => t.kind
  | filler k => k

@[simp] theorem kind_kept (t : Token) : (kept t).kind = t.kind := rfl

@[simp] theorem kind_filler (k : TokenKind) : (filler k).kind = k := rfl

/-- Whether a token may stand here. -/
def FilledBy : Slot → Token → Prop
  | kept t, u => u = t
  | filler k, u => u.kind = k

theorem FilledBy.kind_eq {slot : Slot} {t : Token} (h : slot.FilledBy t) :
    t.kind = slot.kind := by
  cases slot with
  | kept u => exact congrArg Token.kind h
  | filler k => exact h

end Slot

end Grammar

/-- The kind of the token of a constant. -/
def Literal.kind : Literal → TokenKind
  | nil => .keyword .nilWord
  | bool true => .keyword .trueWord
  | bool false => .keyword .falseWord
  | number value => .number value
  | string text => .string text

namespace Expr

open Grammar

/-! ### Precedence -/

/-- How tightly an expression holds together. -/
def rank : Expr → Nat
  | assign .. => 0
  | set .. => 0
  | binary _ operator _ => (precedence? operator.kind).getD 0
  | logical _ operator _ => (precedence? operator.kind).getD 0
  | unary .. => 7
  | call .. => 8
  | get .. => 8
  | _ => 9

/-- Whether the operands of an operator group from the left: the left one holds at least as
    tightly as the operator, the right one more tightly. -/
def fitsBetween (operator : Token) (left right : Nat) : Bool :=
  (precedence? operator.kind).any fun p => decide (p ≤ left) && decide (p < right)

mutual

/-- Whether a tree respects precedence, has the right tokens in its nodes, and has at most
    as many arguments in each call as a call may have. -/
def respects : Expr → Bool
  | literal _ => true
  | grouping inner => inner.respects
  | unary operator right =>
    isPrefixOperator operator.kind && decide (7 ≤ right.rank) && right.respects
  | binary left operator right =>
    fitsBetween operator left.rank right.rank && decide (3 ≤ (binary left operator right).rank)
      && left.respects && right.respects
  | logical left operator right =>
    fitsBetween operator left.rank right.rank && decide ((logical left operator right).rank ≤ 2)
      && left.respects && right.respects
  | var _ name => name.kind == .identifier
  | assign _ name value => name.kind == .identifier && value.respects
  | call callee paren arguments =>
    decide (8 ≤ callee.rank) && callee.respects && paren.kind == .punctuator .rightParen &&
      decide (arguments.length ≤ maxArity) && allRespect arguments
  | get object name =>
    decide (8 ≤ object.rank) && object.respects && name.kind == .identifier
  | set object name value =>
    decide (8 ≤ object.rank) && object.respects && name.kind == .identifier && value.respects
  | thisRef _ keyword => keyword.kind == .keyword .thisWord
  | superRef _ keyword method =>
    keyword.kind == .keyword .superWord && method.kind == .identifier

/-- Whether all of the given trees respect precedence. -/
def allRespect : List Expr → Bool
  | [] => true
  | e :: rest => e.respects && allRespect rest

end

/-! ### Layout -/

mutual

/-- The tokens of a tree from left to right, as far as they are known. -/
def layout : Expr → List Slot
  | literal value => [.filler value.kind]
  | grouping inner =>
    .filler (.punctuator .leftParen) :: inner.layout ++ [.filler (.punctuator .rightParen)]
  | unary operator right => .kept operator :: right.layout
  | binary left operator right => left.layout ++ .kept operator :: right.layout
  | logical left operator right => left.layout ++ .kept operator :: right.layout
  | var _ name => [.kept name]
  | assign _ name value => .kept name :: .filler (.punctuator .equal) :: value.layout
  | call callee paren arguments =>
    callee.layout ++ .filler (.punctuator .leftParen) :: layoutAll arguments ++ [.kept paren]
  | get object name => object.layout ++ [.filler (.punctuator .dot), .kept name]
  | set object name value =>
    object.layout ++ .filler (.punctuator .dot) :: .kept name ::
      .filler (.punctuator .equal) :: value.layout
  | thisRef _ keyword => [.kept keyword]
  | superRef _ keyword method => [.kept keyword, .filler (.punctuator .dot), .kept method]

/-- The tokens of arguments, with commas between them. -/
def layoutAll : List Expr → List Slot
  | [] => []
  | [e] => e.layout
  | e :: next :: rest =>
    e.layout ++ .filler (.punctuator .comma) :: layoutAll (next :: rest)

end

/-- The kinds of the tokens of a tree from left to right. -/
def kinds (e : Expr) : List TokenKind :=
  e.layout.map Slot.kind

/-- Whether a list of tokens is the text of a tree. -/
def Spells (e : Expr) (tokens : List Token) : Prop :=
  List.Forall₂ Slot.FilledBy e.layout tokens

theorem Spells.kinds_eq {e : Expr} {tokens : List Token} (h : e.Spells tokens) :
    e.kinds = tokens.map (·.kind) := by
  unfold kinds
  unfold Spells at h
  generalize e.layout = slots at h ⊢
  induction h with
  | nil => rfl
  | cons filled _ ih => rw [List.map_cons, List.map_cons, filled.kind_eq, ih]

/-! ### Trees without the identities of their nodes -/

mutual

/-- The tree with every node given the same identity: two trees that agree in this form are
    the same up to the identities of their nodes. -/
def bare : Expr → Expr
  | literal value => literal value
  | grouping inner => grouping inner.bare
  | unary operator right => unary operator right.bare
  | binary left operator right => binary left.bare operator right.bare
  | logical left operator right => logical left.bare operator right.bare
  | var _ name => var 0 name
  | assign _ name value => assign 0 name value.bare
  | call callee paren arguments => call callee.bare paren (bareAll arguments)
  | get object name => get object.bare name
  | set object name value => set object.bare name value.bare
  | thisRef _ keyword => thisRef 0 keyword
  | superRef _ keyword method => superRef 0 keyword method

/-- Trees with every node given the same identity. -/
def bareAll : List Expr → List Expr
  | [] => []
  | e :: rest => e.bare :: bareAll rest

end

theorem bareAll_eq_of_forall₂ {as bs : List Expr}
    (h : List.Forall₂ (fun a b => b.bare = a.bare) as bs) : bareAll bs = bareAll as := by
  induction h with
  | nil => rfl
  | cons head _ ih => rw [bareAll, bareAll, head, ih]

/-! ### Texts of compound trees -/

section spells

variable {w : List Token}

theorem filled_append {a b : List Slot} :
    List.Forall₂ Slot.FilledBy (a ++ b) w ↔
      ∃ u v, w = u ++ v ∧ List.Forall₂ Slot.FilledBy a u ∧ List.Forall₂ Slot.FilledBy b v := by
  constructor
  · intro h
    induction a generalizing w with
    | nil => exact ⟨[], w, rfl, .nil, h⟩
    | cons slot a ih =>
      cases h with
      | cons filled later =>
        obtain ⟨u, v, rfl, hu, hv⟩ := ih later
        exact ⟨_ :: u, v, rfl, .cons filled hu, hv⟩
  · intro h
    obtain ⟨u, v, rfl, hu, hv⟩ := h
    exact List.rel_append hu hv

@[simp] theorem filled_kept {t : Token} {b : List Slot} :
    List.Forall₂ Slot.FilledBy (.kept t :: b) w ↔
      ∃ v, w = t :: v ∧ List.Forall₂ Slot.FilledBy b v := by
  rw [List.forall₂_cons_left_iff]
  constructor
  · intro h
    obtain ⟨_, v, rfl, hv, rfl⟩ := h
    exact ⟨v, rfl, hv⟩
  · intro h
    obtain ⟨v, rfl, hv⟩ := h
    exact ⟨t, v, rfl, hv, rfl⟩

@[simp] theorem filled_filler {k : TokenKind} {b : List Slot} :
    List.Forall₂ Slot.FilledBy (.filler k :: b) w ↔
      ∃ t v, w = t :: v ∧ t.kind = k ∧ List.Forall₂ Slot.FilledBy b v := by
  rw [List.forall₂_cons_left_iff]
  constructor
  · intro h
    obtain ⟨t, v, kind, hv, rfl⟩ := h
    exact ⟨t, v, rfl, kind, hv⟩
  · intro h
    obtain ⟨t, v, rfl, kind, hv⟩ := h
    exact ⟨t, v, kind, hv, rfl⟩

theorem spells_literal {value : Literal} :
    (literal value).Spells w ↔ ∃ t, w = [t] ∧ t.kind = value.kind := by
  simp [Spells, layout]

theorem spells_grouping {inner : Expr} :
    (grouping inner).Spells w ↔ ∃ l u r, w = l :: u ++ [r] ∧
      l.kind = .punctuator .leftParen ∧ inner.Spells u ∧ r.kind = .punctuator .rightParen := by
  simp [Spells, layout, filled_append]

theorem spells_unary {operator : Token} {right : Expr} :
    (unary operator right).Spells w ↔ ∃ u, w = operator :: u ∧ right.Spells u := by
  simp [Spells, layout]

theorem spells_binary {left right : Expr} {operator : Token} :
    (binary left operator right).Spells w ↔
      ∃ u v, w = u ++ operator :: v ∧ left.Spells u ∧ right.Spells v := by
  simp [Spells, layout, filled_append]

theorem spells_logical {left right : Expr} {operator : Token} :
    (logical left operator right).Spells w ↔
      ∃ u v, w = u ++ operator :: v ∧ left.Spells u ∧ right.Spells v := by
  simp [Spells, layout, filled_append]

theorem spells_var {node : NodeId} {name : Token} : (var node name).Spells w ↔ w = [name] := by
  simp [Spells, layout]

theorem spells_assign {node : NodeId} {name : Token} {value : Expr} :
    (assign node name value).Spells w ↔
      ∃ t v, w = name :: t :: v ∧ t.kind = .punctuator .equal ∧ value.Spells v := by
  simp [Spells, layout]

theorem spells_get {object : Expr} {name : Token} :
    (get object name).Spells w ↔
      ∃ u t, w = u ++ [t, name] ∧ object.Spells u ∧ t.kind = .punctuator .dot := by
  simp [Spells, layout, filled_append]

theorem spells_set {object value : Expr} {name : Token} :
    (set object name value).Spells w ↔
      ∃ u t q v, w = u ++ t :: name :: q :: v ∧ object.Spells u ∧
        t.kind = .punctuator .dot ∧ q.kind = .punctuator .equal ∧ value.Spells v := by
  simp [Spells, layout, filled_append]

theorem spells_thisRef {node : NodeId} {keyword : Token} :
    (thisRef node keyword).Spells w ↔ w = [keyword] := by
  simp [Spells, layout]

theorem spells_superRef {node : NodeId} {keyword method : Token} :
    (superRef node keyword method).Spells w ↔
      ∃ t, w = [keyword, t, method] ∧ t.kind = .punctuator .dot := by
  simp [Spells, layout]

/-- The text of one or more arguments: their texts with commas between them. -/
theorem filled_layoutAll {e : Expr} {rest : List Expr} :
    List.Forall₂ Slot.FilledBy (layoutAll (e :: rest)) w ↔
      Separated (fun u e => e.Spells u) w (e :: rest) := by
  induction rest generalizing e w with
  | nil =>
    rw [layoutAll]
    constructor
    · intro h
      exact .single h
    · intro h
      cases h with
      | single h => exact h
      | cons _ _ later => cases later
  | cons next rest ih =>
    rw [layoutAll, filled_append]
    simp only [filled_filler, ih]
    constructor
    · intro h
      obtain ⟨u, _, rfl, hu, t, v, rfl, comma, hv⟩ := h
      exact .cons hu comma hv
    · intro h
      cases h with
      | cons hu comma hv => exact ⟨_, _, rfl, hu, _, _, rfl, comma, hv⟩

theorem spells_call {callee : Expr} {paren : Token} {arguments : List Expr} :
    (call callee paren arguments).Spells w ↔
      ∃ u t v, w = u ++ t :: v ++ [paren] ∧ callee.Spells u ∧
        t.kind = .punctuator .leftParen ∧
        (arguments = [] ∧ v = [] ∨ Separated (fun u e => e.Spells u) v arguments) := by
  cases arguments with
  | nil => simp [Spells, layout, layoutAll, filled_append]
  | cons e rest => simp [Spells, layout, filled_append, filled_layoutAll]

end spells

end Expr

end Lox
