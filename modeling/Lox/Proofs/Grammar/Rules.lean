import Lox.Proofs.Grammar.Runs

/-! # The grammar as a table

  The grammar of the language in extended Backus-Naur form: what may stand for each symbol,
  and which lists of tokens are derived from it. A list of tokens here never has an end
  token, so `program` does not ask for one.

  Two ways of looking at derivations are proved equal to the inductive one: a list derived
  from a symbol is derived by the rule of the symbol (`derives_iff`), and what holds of
  every list that a rule makes of derived lists for which it holds, holds of all lists that
  are derived (`Derives.induct`).
-/

namespace Lox.Grammar

/-- The symbols of the grammar. -/
inductive Symbol where
  | program | declaration | classDecl | funDecl | function | varDecl
  | statement | exprStmt | forStmt | ifStmt | printStmt | returnStmt | whileStmt | block
  | parameters | expression | assignment | logicOr | logicAnd | equality | comparison
  | term | factor | unary | call | arguments | primary
  deriving DecidableEq, Repr

/-- The right side of a rule. -/
inductive Pattern where
  /-- One token of a kind, whatever literal it carries. -/
  | token (kind : TokenKind)
  /-- What is derived from a symbol. -/
  | symbol (s : Symbol)
  /-- No token. -/
  | empty
  /-- No list at all. -/
  | never
  /-- One after the other. -/
  | both (first second : Pattern)
  /-- One or the other. -/
  | either (first second : Pattern)
  /-- Any number of times. -/
  | many (item : Pattern)
  /-- At most so many times. -/
  | atMost (bound : Nat) (item : Pattern)

namespace Pattern

/-- One after another. -/
def seq (ps : List Pattern) : Pattern :=
  ps.foldr both empty

/-- One of several. -/
def alt (ps : List Pattern) : Pattern :=
  ps.foldr either never

/-- Once or not at all. -/
def opt (p : Pattern) : Pattern :=
  either empty p

/-- A punctuator. -/
def sign (p : Punctuator) : Pattern :=
  token (.punctuator p)

/-- A keyword. -/
def word (k : Keyword) : Pattern :=
  token (.keyword k)

/-- A name. -/
def name : Pattern :=
  token .identifier

/-- Operands with one of the given operators between each and the next. -/
def chain (operand : Symbol) (operators : List Pattern) : Pattern :=
  seq [symbol operand, many (seq [alt operators, symbol operand])]

/-- Items with commas between them, not more than a list may have. -/
def list (item : Pattern) : Pattern :=
  seq [item, atMost (maxArity - 1) (seq [sign .comma, item])]

end Pattern

open Pattern in
/-- The rules of the grammar. -/
def rule : Symbol → Pattern
  | .program => many (symbol .declaration)
  | .declaration =>
    alt [symbol .classDecl, symbol .funDecl, symbol .varDecl, symbol .statement]
  | .classDecl =>
    seq [word .classWord, name, opt (seq [sign .less, name]), sign .leftBrace,
      many (symbol .function), sign .rightBrace]
  | .funDecl => seq [word .funWord, symbol .function]
  | .function =>
    seq [name, sign .leftParen, opt (symbol .parameters), sign .rightParen, symbol .block]
  | .varDecl =>
    seq [word .varWord, name, opt (seq [sign .equal, symbol .expression]), sign .semicolon]
  | .statement =>
    alt [symbol .exprStmt, symbol .forStmt, symbol .ifStmt, symbol .printStmt,
      symbol .returnStmt, symbol .whileStmt, symbol .block]
  | .exprStmt => seq [symbol .expression, sign .semicolon]
  | .forStmt =>
    seq [word .forWord, sign .leftParen,
      alt [symbol .varDecl, symbol .exprStmt, sign .semicolon],
      opt (symbol .expression), sign .semicolon, opt (symbol .expression), sign .rightParen,
      symbol .statement]
  | .ifStmt =>
    seq [word .ifWord, sign .leftParen, symbol .expression, sign .rightParen,
      symbol .statement, opt (seq [word .elseWord, symbol .statement])]
  | .printStmt => seq [word .printWord, symbol .expression, sign .semicolon]
  | .returnStmt => seq [word .returnWord, opt (symbol .expression), sign .semicolon]
  | .whileStmt =>
    seq [word .whileWord, sign .leftParen, symbol .expression, sign .rightParen,
      symbol .statement]
  | .block => seq [sign .leftBrace, many (symbol .declaration), sign .rightBrace]
  | .parameters => list name
  | .expression => symbol .assignment
  | .assignment =>
    alt [seq [opt (seq [symbol .call, sign .dot]), name, sign .equal, symbol .assignment],
      symbol .logicOr]
  | .logicOr => chain .logicAnd [word .orWord]
  | .logicAnd => chain .equality [word .andWord]
  | .equality => chain .comparison [sign .bangEqual, sign .equalEqual]
  | .comparison =>
    chain .term [sign .greater, sign .greaterEqual, sign .less, sign .lessEqual]
  | .term => chain .factor [sign .minus, sign .plus]
  | .factor => chain .unary [sign .slash, sign .star]
  | .unary => alt [seq [alt [sign .bang, sign .minus], symbol .unary], symbol .call]
  | .call =>
    seq [symbol .primary,
      many (alt [seq [sign .leftParen, opt (symbol .arguments), sign .rightParen],
        seq [sign .dot, name]])]
  | .arguments => list (symbol .expression)
  | .primary =>
    alt [token (.number 0), token (.string ""), word .trueWord, word .falseWord,
      word .nilWord, word .thisWord, name,
      seq [sign .leftParen, symbol .expression, sign .rightParen],
      seq [word .superWord, sign .dot, name]]

/-- Whether a list of tokens is one of those that a pattern describes. -/
inductive Matches : Pattern → List Token → Prop where
  | token {kind : TokenKind} {t : Token} (h : t.kind.agrees kind = true) :
      Matches (.token kind) [t]
  | symbol {s : Symbol} {w : List Token} (h : Matches (rule s) w) : Matches (.symbol s) w
  | empty : Matches .empty []
  | both {p q : Pattern} {u v : List Token} (first : Matches p u) (second : Matches q v) :
      Matches (.both p q) (u ++ v)
  | left {p q : Pattern} {w : List Token} (h : Matches p w) : Matches (.either p q) w
  | right {p q : Pattern} {w : List Token} (h : Matches q w) : Matches (.either p q) w
  | many {p : Pattern} (ws : List (List Token)) (h : ∀ w ∈ ws, Matches p w) :
      Matches (.many p) ws.flatten
  | atMost {n : Nat} {p : Pattern} (ws : List (List Token)) (few : ws.length ≤ n)
      (h : ∀ w ∈ ws, Matches p w) : Matches (.atMost n p) ws.flatten

/-- Whether a list of tokens is derived from a symbol. -/
def Derives (s : Symbol) (w : List Token) : Prop :=
  Matches (.symbol s) w

/-! ### Derivations by one rule -/

/-- The lists that a pattern describes, if `Q` says what its symbols stand for. -/
def Fits (Q : Symbol → List Token → Prop) : Pattern → List Token → Prop
  | .token kind, w => ∃ t, w = [t] ∧ t.kind.agrees kind = true
  | .symbol s, w => Q s w
  | .empty, w => w = []
  | .never, _ => False
  | .both p q, w => ∃ u v, w = u ++ v ∧ Fits Q p u ∧ Fits Q q v
  | .either p q, w => Fits Q p w ∨ Fits Q q w
  | .many p, w => ∃ ws : List (List Token), w = ws.flatten ∧ ∀ u ∈ ws, Fits Q p u
  | .atMost n p, w => ∃ ws : List (List Token), w = ws.flatten ∧ ws.length ≤ n ∧
      ∀ u ∈ ws, Fits Q p u

theorem Fits.mono {Q R : Symbol → List Token → Prop} (imp : ∀ s w, Q s w → R s w)
    {p : Pattern} {w : List Token} (h : Fits Q p w) : Fits R p w := by
  induction p generalizing w with
  | token | empty | never => exact h
  | symbol s => exact imp s w h
  | both p q ihp ihq =>
    obtain ⟨u, v, rfl, hu, hv⟩ := h
    exact ⟨u, v, rfl, ihp hu, ihq hv⟩
  | either p q ihp ihq => exact h.imp ihp ihq
  | many p ih =>
    obtain ⟨ws, rfl, all⟩ := h
    exact ⟨ws, rfl, fun u hu => ih (all u hu)⟩
  | atMost n p ih =>
    obtain ⟨ws, rfl, few, all⟩ := h
    exact ⟨ws, rfl, few, fun u hu => ih (all u hu)⟩

theorem matches_of_fits {p : Pattern} {w : List Token} (h : Fits Derives p w) :
    Matches p w := by
  induction p generalizing w with
  | token kind =>
    obtain ⟨t, rfl, agrees⟩ := h
    exact .token agrees
  | symbol s => exact h
  | empty =>
    obtain rfl : w = [] := h
    exact .empty
  | never => exact h.elim
  | both p q ihp ihq =>
    obtain ⟨u, v, rfl, hu, hv⟩ := h
    exact .both (ihp hu) (ihq hv)
  | either p q ihp ihq =>
    rcases h with hp | hq
    · exact .left (ihp hp)
    · exact .right (ihq hq)
  | many p ih =>
    obtain ⟨ws, rfl, all⟩ := h
    exact .many ws fun u hu => ih (all u hu)
  | atMost n p ih =>
    obtain ⟨ws, rfl, few, all⟩ := h
    exact .atMost ws few fun u hu => ih (all u hu)

/-- What is closed under the rules holds of all that is derived. -/
theorem fits_of_matches {Q : Symbol → List Token → Prop}
    (closed : ∀ s w, Fits Q (rule s) w → Q s w) {p : Pattern} {w : List Token}
    (h : Matches p w) : Fits Q p w := by
  induction h with
  | token agrees => exact ⟨_, rfl, agrees⟩
  | symbol _ ih => exact closed _ _ ih
  | empty => exact rfl
  | both _ _ ihp ihq => exact ⟨_, _, rfl, ihp, ihq⟩
  | left _ ih => exact .inl ih
  | right _ ih => exact .inr ih
  | many ws _ ih => exact ⟨ws, rfl, ih⟩
  | atMost ws few _ ih => exact ⟨ws, rfl, few, ih⟩

theorem derives_iff {s : Symbol} {w : List Token} :
    Derives s w ↔ Fits Derives (rule s) w := by
  constructor
  · intro h
    cases h with
    | symbol h => exact fits_of_matches (fun _ _ fits => .symbol (matches_of_fits fits)) h
  · intro h
    exact .symbol (matches_of_fits h)

theorem Derives.induct {Q : Symbol → List Token → Prop}
    (closed : ∀ s w, Fits (fun s' u => Derives s' u ∧ Q s' u) (rule s) w → Q s w)
    {s : Symbol} {w : List Token} (h : Derives s w) : Q s w := by
  have both : Fits (fun s' u => Derives s' u ∧ Q s' u) (.symbol s) w := by
    refine fits_of_matches ?_ h
    intro s w fits
    exact ⟨derives_iff.2 (fits.mono fun _ _ known => known.1), closed s w fits⟩
  exact both.2

/-! ### Patterns taken apart -/

section fits

variable {Q : Symbol → List Token → Prop} {w : List Token}

@[simp] theorem fits_token {kind : TokenKind} :
    Fits Q (.token kind) w ↔ ∃ t, w = [t] ∧ t.kind.agrees kind = true := Iff.rfl

@[simp] theorem fits_sign {p : Punctuator} :
    Fits Q (.sign p) w ↔ ∃ t, w = [t] ∧ t.kind = .punctuator p := by
  simp only [Pattern.sign, fits_token, TokenKind.agrees_punctuator]

@[simp] theorem fits_word {k : Keyword} :
    Fits Q (.word k) w ↔ ∃ t, w = [t] ∧ t.kind = .keyword k := by
  simp only [Pattern.word, fits_token, TokenKind.agrees_keyword]

@[simp] theorem fits_name :
    Fits Q .name w ↔ ∃ t, w = [t] ∧ t.kind = .identifier := by
  simp only [Pattern.name, fits_token, TokenKind.agrees_identifier]

@[simp] theorem fits_symbol {s : Symbol} : Fits Q (.symbol s) w ↔ Q s w := Iff.rfl

@[simp] theorem fits_seq_nil : Fits Q (.seq []) w ↔ w = [] := Iff.rfl

theorem fits_seq_cons {p : Pattern} {ps : List Pattern} :
    Fits Q (.seq (p :: ps)) w ↔ ∃ u v, w = u ++ v ∧ Fits Q p u ∧ Fits Q (.seq ps) v := Iff.rfl

@[simp] theorem fits_alt_nil : Fits Q (.alt []) w ↔ False := Iff.rfl

@[simp] theorem fits_alt_cons {p : Pattern} {ps : List Pattern} :
    Fits Q (.alt (p :: ps)) w ↔ Fits Q p w ∨ Fits Q (.alt ps) w := Iff.rfl

/-- A sequence that starts with one token. -/
theorem fits_seq_of_token {p : Pattern} {ps : List Pattern} {T : Token → Prop}
    (h : ∀ w, Fits Q p w ↔ ∃ t, w = [t] ∧ T t) :
    Fits Q (.seq (p :: ps)) w ↔ ∃ t v, w = t :: v ∧ T t ∧ Fits Q (.seq ps) v := by
  rw [fits_seq_cons]
  constructor
  · intro fits
    obtain ⟨u, v, rfl, first, second⟩ := fits
    obtain ⟨t, rfl, ht⟩ := (h u).1 first
    exact ⟨t, v, rfl, ht, second⟩
  · intro fits
    obtain ⟨t, v, rfl, ht, second⟩ := fits
    exact ⟨[t], v, rfl, (h [t]).2 ⟨t, rfl, ht⟩, second⟩

@[simp] theorem fits_seq_sign {p : Punctuator} {ps : List Pattern} :
    Fits Q (.seq (.sign p :: ps)) w ↔
      ∃ t v, w = t :: v ∧ t.kind = .punctuator p ∧ Fits Q (.seq ps) v :=
  fits_seq_of_token fun _ => fits_sign

@[simp] theorem fits_seq_word {k : Keyword} {ps : List Pattern} :
    Fits Q (.seq (.word k :: ps)) w ↔
      ∃ t v, w = t :: v ∧ t.kind = .keyword k ∧ Fits Q (.seq ps) v :=
  fits_seq_of_token fun _ => fits_word

@[simp] theorem fits_seq_name {ps : List Pattern} :
    Fits Q (.seq (.name :: ps)) w ↔
      ∃ t v, w = t :: v ∧ t.kind = .identifier ∧ Fits Q (.seq ps) v :=
  fits_seq_of_token fun _ => fits_name

@[simp] theorem fits_seq_symbol {s : Symbol} {ps : List Pattern} :
    Fits Q (.seq (.symbol s :: ps)) w ↔
      ∃ u v, w = u ++ v ∧ Q s u ∧ Fits Q (.seq ps) v := Iff.rfl

@[simp] theorem fits_seq_opt {p : Pattern} {ps : List Pattern} :
    Fits Q (.seq (.opt p :: ps)) w ↔
      ∃ u v, w = u ++ v ∧ (u = [] ∨ Fits Q p u) ∧ Fits Q (.seq ps) v := Iff.rfl

@[simp] theorem fits_seq_alt {as ps : List Pattern} :
    Fits Q (.seq (.alt as :: ps)) w ↔
      ∃ u v, w = u ++ v ∧ Fits Q (.alt as) u ∧ Fits Q (.seq ps) v := Iff.rfl

@[simp] theorem fits_seq_many {p : Pattern} {ps : List Pattern} :
    Fits Q (.seq (.many p :: ps)) w ↔
      ∃ (ws : List (List Token)) (v : List Token), w = ws.flatten ++ v ∧
        (∀ u ∈ ws, Fits Q p u) ∧ Fits Q (.seq ps) v := by
  rw [fits_seq_cons]
  constructor
  · intro fits
    obtain ⟨u, v, rfl, ⟨ws, rfl, all⟩, second⟩ := fits
    exact ⟨ws, v, rfl, all, second⟩
  · intro fits
    obtain ⟨ws, v, rfl, all, second⟩ := fits
    exact ⟨ws.flatten, v, rfl, ⟨ws, rfl, all⟩, second⟩

/-- Each of some lists has a companion exactly if they have a list of companions. -/
theorem exists_forall₂ {α β : Type} {R : α → β → Prop} {as : List α} :
    (∃ bs, List.Forall₂ R as bs) ↔ ∀ a ∈ as, ∃ b, R a b := by
  induction as with
  | nil => exact ⟨fun _ a ha => (nomatch ha), fun _ => ⟨[], .nil⟩⟩
  | cons a as ih =>
    rw [List.forall_mem_cons, ← ih]
    constructor
    · intro h
      obtain ⟨_, h⟩ := h
      cases h with
      | cons head tail => exact ⟨⟨_, head⟩, _, tail⟩
    · intro h
      obtain ⟨⟨b, head⟩, bs, tail⟩ := h
      exact ⟨b :: bs, .cons head tail⟩

/-- A comma and an item. -/
def AfterComma {α : Type} (P : List Token → α → Prop) (w : List Token) (a : α) : Prop :=
  ∃ comma v, w = comma :: v ∧ comma.kind = .punctuator .comma ∧ P v a

theorem separated_cons_iff {α : Type} {P : List Token → α → Prop} {a : α} {as : List α} :
    Separated P w (a :: as) ↔
      ∃ u ws, w = u ++ ws.flatten ∧ P u a ∧ List.Forall₂ (AfterComma P) ws as := by
  -- on the elements behind the first, each with the comma in front of it
  induction as generalizing w a with
  | nil =>
    constructor
    · intro h
      cases h with
      | single ha => exact ⟨w, [], by simp, ha, .nil⟩
      | cons _ _ more => cases more
    · intro h
      obtain ⟨u, ws, rfl, ha, none⟩ := h
      cases none
      simpa using .single ha
  | cons b bs ih =>
    constructor
    · intro h
      cases h with
      | @cons u v _ _ comma ha hc more =>
        obtain ⟨u', ws, rfl, hb, rest⟩ := ih.1 more
        exact ⟨u, (comma :: u') :: ws, by simp, ha, .cons ⟨comma, u', rfl, hc, hb⟩ rest⟩
    · intro h
      obtain ⟨u, ws, rfl, ha, items⟩ := h
      cases items with
      | @cons _ _ ws _ head rest =>
        obtain ⟨comma, v, rfl, hc, hb⟩ := head
        have more := ih.2 ⟨v, ws, rfl, hb, rest⟩
        simpa using Separated.cons ha hc more

/-- A list with commas fits its pattern exactly if it separates items that do, and they are
    not too many. -/
theorem fits_list {p : Pattern} {α : Type} {P : List Token → α → Prop}
    (item : ∀ u, Fits Q p u ↔ ∃ a, P u a) :
    Fits Q (.list p) w ↔ ∃ as, as.length ≤ maxArity ∧ Separated P w as := by
  have after : ∀ x, Fits Q (.seq [.sign .comma, p]) x ↔ ∃ a, AfterComma P x a := by
    intro x
    rw [fits_seq_sign]
    constructor
    · intro h
      obtain ⟨comma, _, rfl, hc, v, _, rfl, hv, rfl⟩ := h
      obtain ⟨a, ha⟩ := (item v).1 hv
      exact ⟨a, comma, v, by simp, hc, ha⟩
    · intro h
      obtain ⟨a, comma, v, rfl, hc, ha⟩ := h
      exact ⟨comma, v, rfl, hc, v, [], by simp, (item v).2 ⟨a, ha⟩, rfl⟩
  constructor
  · intro h
    obtain ⟨u, _, rfl, hu, _, _, rfl, ⟨ws, rfl, few, all⟩, rfl⟩ := h
    obtain ⟨a, ha⟩ := (item u).1 hu
    obtain ⟨as, items⟩ := exists_forall₂.2 fun x hx => (after x).1 (all x hx)
    refine ⟨a :: as, ?_, separated_cons_iff.2 ⟨u, ws, by simp, ha, items⟩⟩
    rw [List.length_cons, ← items.length_eq]
    have positive : 1 ≤ maxArity := by decide
    omega
  · intro h
    obtain ⟨as, short, separated⟩ := h
    cases as with
    | nil => exact absurd separated not_separated_nil
    | cons a as =>
      obtain ⟨u, ws, rfl, ha, items⟩ := separated_cons_iff.1 separated
      rw [List.length_cons, ← items.length_eq] at short
      refine ⟨u, ws.flatten, rfl, (item u).2 ⟨a, ha⟩, ws.flatten, [], by simp, ?_, rfl⟩
      have all := exists_forall₂.1 ⟨as, items⟩
      exact ⟨ws, rfl, by omega, fun x hx => (after x).2 (all x hx)⟩

end fits

end Lox.Grammar
