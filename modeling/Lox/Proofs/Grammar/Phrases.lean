import Lox.Proofs.Grammar.ExpressionRules

/-! # Programs as lists of tokens

  `Phrase.Spells` says which tokens are the text of which tree, with one rule for every form
  of statement and declaration. Names, keywords and the parentheses that close calls stand
  in the tree as the very tokens of the text.

  The table of rules does not say to which `if` an `else` belongs. Here every statement
  comes with a mark, whether an `else` after it would still belong to it; only a statement
  without the mark may stand before the `else` of another one. So an `else` belongs to the
  nearest `if`. Every derivation can be rearranged in this way (`Phrase.attach`), so the
  texts are all that the table derives.
-/

namespace Lox

/-! ### Trees without the identities of their nodes -/

mutual

/-- A statement with every node given the same identity. -/
def Stmt.bare : Stmt → Stmt
  | .expression value => .expression value.bare
  | .print keyword value => .print keyword value.bare
  | .varDecl name initializer => .varDecl name (initializer.map Expr.bare)
  | .block body => .block (Stmt.bareAll body)
  | .ifElse condition thenBranch elseBranch =>
    .ifElse condition.bare thenBranch.bare (Stmt.bareElse elseBranch)
  | .whileLoop condition body => .whileLoop condition.bare body.bare
  | .funDecl declaration => .funDecl declaration.bare
  | .ret keyword value => .ret keyword (value.map Expr.bare)
  | .classDecl name superclass methods =>
    .classDecl name (superclass.map Expr.bare) (FunctionDecl.bareAll methods)

/-- Statements with every node given the same identity. -/
def Stmt.bareAll : List Stmt → List Stmt
  | [] => []
  | s :: rest => s.bare :: Stmt.bareAll rest

/-- What `else` introduces, with every node given the same identity. -/
def Stmt.bareElse : Option Stmt → Option Stmt
  | none => none
  | some s => some s.bare

/-- A function with every node given the same identity. -/
def FunctionDecl.bare : FunctionDecl → FunctionDecl
  | ⟨name, params, body⟩ => ⟨name, params, Stmt.bareAll body⟩

/-- Functions with every node given the same identity. -/
def FunctionDecl.bareAll : List FunctionDecl → List FunctionDecl
  | [] => []
  | f :: rest => f.bare :: FunctionDecl.bareAll rest

end

namespace Grammar

/-! ### Texts of phrases -/

/-- An expression that may be left out. -/
def OptionalText (w : List Token) (o : Option Expr) : Prop :=
  w = [] ∧ o = none ∨ ∃ e, o = some e ∧ Tight 0 w e

/-- What may stand between the name of a variable and its semicolon. -/
def InitializerText (w : List Token) (o : Option Expr) : Prop :=
  w = [] ∧ o = none ∨
    ∃ equals v e, w = equals :: v ∧ equals.kind = .punctuator .equal ∧ o = some e ∧ Tight 0 v e

/-- What may stand between the name of a class and its body. -/
def SuperclassText (w : List Token) (o : Option Expr) : Prop :=
  w = [] ∧ o = none ∨
    ∃ less name node, w = [less, name] ∧ less.kind = .punctuator .less ∧
      name.kind = .identifier ∧ o = some (.var node name)

/-- One name. -/
def NameText (w : List Token) (name : Token) : Prop :=
  w = [name] ∧ name.kind = .identifier

/-- What may stand between the parentheses of a function. -/
def ParametersText (w : List Token) (params : List Token) : Prop :=
  params.length ≤ maxArity ∧ (params = [] ∧ w = [] ∨ Separated NameText w params)

/-- The declaration of a variable. -/
def VariableText (w : List Token) (s : Stmt) : Prop :=
  ∃ keyword name v semicolon initializer, w = keyword :: name :: v ++ [semicolon] ∧
    keyword.kind = .keyword .varWord ∧ name.kind = .identifier ∧
    InitializerText v initializer ∧ semicolon.kind = .punctuator .semicolon ∧
    s = .varDecl name initializer

/-- An expression with a semicolon. -/
def ExpressionText (w : List Token) (s : Stmt) : Prop :=
  ∃ v semicolon e, w = v ++ [semicolon] ∧ Tight 0 v e ∧
    semicolon.kind = .punctuator .semicolon ∧ s = .expression e

/-- What may stand first between the parentheses of a `for` loop. -/
def ForInitializerText (w : List Token) (o : Option Stmt) : Prop :=
  (∃ semicolon, w = [semicolon] ∧ semicolon.kind = .punctuator .semicolon ∧ o = none) ∨
    ∃ s, o = some s ∧ (VariableText w s ∨ ExpressionText w s)

/-- Statements one after another, in a block unless there is just one. -/
def inSequence : List Stmt → Stmt
  | [s] => s
  | ss => .block ss

/-- A `for` loop: the initializer, if any, and then a `while` loop that runs the body and
    then the increment, if any. Without a condition the loop has `true` for one. -/
def forTree (initializer : Option Stmt) (condition increment : Option Expr) (body : Stmt) :
    Stmt :=
  inSequence (initializer.toList ++ [.whileLoop (condition.getD (.literal (.bool true)))
    (inSequence (body :: increment.toList.map .expression))])

theorem bare_forTree (initializer : Option Stmt) (condition increment : Option Expr)
    (body : Stmt) :
    (forTree initializer condition increment body).bare =
      forTree (initializer.map Stmt.bare) (condition.map Expr.bare) (increment.map Expr.bare)
        body.bare := by
  cases initializer <;> cases condition <;> cases increment <;>
    simp [forTree, inSequence, Stmt.bare, Stmt.bareAll, Expr.bare]

/-- What may be read: a statement or declaration, with the mark whether an `else` after it
    would belong to it, or several, or a function without `fun`, or several. -/
inductive Phrase where
  | statement (dangling : Bool) (s : Stmt)
  | declaration (dangling : Bool) (s : Stmt)
  | declarations (ss : List Stmt)
  | function (f : FunctionDecl)
  | functions (fs : List FunctionDecl)

/-- Whether a list of tokens is the text of a phrase. -/
inductive Phrase.Spells : Phrase → List Token → Prop where
  | expression {w : List Token} {s : Stmt} :
      ExpressionText w s → Spells (.statement false s) w
  | print {keyword semicolon : Token} {w : List Token} {e : Expr} :
      keyword.kind = .keyword .printWord → Tight 0 w e →
      semicolon.kind = .punctuator .semicolon →
      Spells (.statement false (.print keyword e)) (keyword :: w ++ [semicolon])
  | ret {keyword semicolon : Token} {w : List Token} {value : Option Expr} :
      keyword.kind = .keyword .returnWord → OptionalText w value →
      semicolon.kind = .punctuator .semicolon →
      Spells (.statement false (.ret keyword value)) (keyword :: w ++ [semicolon])
  | block {l r : Token} {w : List Token} {ss : List Stmt} :
      l.kind = .punctuator .leftBrace → Spells (.declarations ss) w →
      r.kind = .punctuator .rightBrace →
      Spells (.statement false (.block ss)) (l :: w ++ [r])
  | ifThen {keyword l r : Token} {u v : List Token} {c : Expr} {s : Stmt} {d : Bool} :
      keyword.kind = .keyword .ifWord → l.kind = .punctuator .leftParen → Tight 0 u c →
      r.kind = .punctuator .rightParen → Spells (.statement d s) v →
      Spells (.statement true (.ifElse c s none)) (keyword :: l :: u ++ r :: v)
  | ifElse {keyword l r word : Token} {u v w : List Token} {c : Expr} {s t : Stmt}
      {d : Bool} :
      keyword.kind = .keyword .ifWord → l.kind = .punctuator .leftParen → Tight 0 u c →
      r.kind = .punctuator .rightParen → Spells (.statement false s) v →
      word.kind = .keyword .elseWord → Spells (.statement d t) w →
      Spells (.statement d (.ifElse c s (some t))) (keyword :: l :: u ++ r :: v ++ word :: w)
  | whileLoop {keyword l r : Token} {u v : List Token} {c : Expr} {s : Stmt} {d : Bool} :
      keyword.kind = .keyword .whileWord → l.kind = .punctuator .leftParen → Tight 0 u c →
      r.kind = .punctuator .rightParen → Spells (.statement d s) v →
      Spells (.statement d (.whileLoop c s)) (keyword :: l :: u ++ r :: v)
  | forLoop {keyword l semicolon r : Token} {i c n v : List Token} {s : Stmt} {d : Bool}
      {initializer : Option Stmt} {condition increment : Option Expr} :
      keyword.kind = .keyword .forWord → l.kind = .punctuator .leftParen →
      ForInitializerText i initializer → OptionalText c condition →
      semicolon.kind = .punctuator .semicolon → OptionalText n increment →
      r.kind = .punctuator .rightParen → Spells (.statement d s) v →
      Spells (.statement d (forTree initializer condition increment s))
        (keyword :: l :: i ++ c ++ semicolon :: n ++ r :: v)
  | statement {w : List Token} {s : Stmt} {d : Bool} :
      Spells (.statement d s) w → Spells (.declaration d s) w
  | varDecl {w : List Token} {s : Stmt} :
      VariableText w s → Spells (.declaration false s) w
  | funDecl {keyword : Token} {w : List Token} {f : FunctionDecl} :
      keyword.kind = .keyword .funWord → Spells (.function f) w →
      Spells (.declaration false (.funDecl f)) (keyword :: w)
  | classDecl {keyword name l r : Token} {u w : List Token} {superclass : Option Expr}
      {methods : List FunctionDecl} :
      keyword.kind = .keyword .classWord → name.kind = .identifier →
      SuperclassText u superclass → l.kind = .punctuator .leftBrace →
      Spells (.functions methods) w → r.kind = .punctuator .rightBrace →
      Spells (.declaration false (.classDecl name superclass methods))
        (keyword :: name :: u ++ l :: w ++ [r])
  | noDeclarations : Spells (.declarations []) []
  | declarations {u v : List Token} {s : Stmt} {ss : List Stmt} {d : Bool} :
      Spells (.declaration d s) u → Spells (.declarations ss) v →
      Spells (.declarations (s :: ss)) (u ++ v)
  | function {name l r b e : Token} {u w : List Token} {params : List Token}
      {body : List Stmt} :
      name.kind = .identifier → l.kind = .punctuator .leftParen → ParametersText u params →
      r.kind = .punctuator .rightParen → b.kind = .punctuator .leftBrace →
      Spells (.declarations body) w → e.kind = .punctuator .rightBrace →
      Spells (.function ⟨name, params, body⟩) (name :: l :: u ++ r :: b :: w ++ [e])
  | noFunctions : Spells (.functions []) []
  | functions {u v : List Token} {f : FunctionDecl} {fs : List FunctionDecl} :
      Spells (.function f) u → Spells (.functions fs) v →
      Spells (.functions (f :: fs)) (u ++ v)

/-! ### An `else` belongs to the nearest `if` -/

/-- A statement that an `else` after it would belong to, followed by an `else` and a
    statement, is a statement. -/
theorem Phrase.attach {p : Phrase} {v : List Token} (h : p.Spells v) {s : Stmt}
    (marked : p = .statement true s) {word : Token} (hword : word.kind = .keyword .elseWord)
    {d : Bool} {t : Stmt} {w : List Token} (ht : (Phrase.statement d t).Spells w) :
    ∃ d' s', (Phrase.statement d' s').Spells (v ++ word :: w) := by
  induction h generalizing s with
  | @ifThen keyword l r u v c s' d' hkeyword hl hc hr hs ih =>
    cases d' with
    | false =>
      -- the branch is closed, so the `else` belongs to this `if`
      exact ⟨d, _, by simpa using Spells.ifElse hkeyword hl hc hr hs hword ht⟩
    | true =>
      obtain ⟨d'', s'', longer⟩ := ih rfl
      exact ⟨true, _, by simpa using Spells.ifThen hkeyword hl hc hr longer⟩
  | @ifElse keyword l r word' u v w' c s' t' d' hkeyword hl hc hr hs hword' _ _ ih =>
    cases marked
    obtain ⟨d'', t'', longer⟩ := ih rfl
    exact ⟨d'', _, by simpa using Spells.ifElse hkeyword hl hc hr hs hword' longer⟩
  | @whileLoop keyword l r u v c s' d' hkeyword hl hc hr _ ih =>
    cases marked
    obtain ⟨d'', s'', longer⟩ := ih rfl
    exact ⟨d'', _, by simpa using Spells.whileLoop hkeyword hl hc hr longer⟩
  | @forLoop keyword l semicolon r i c n v s' d' initializer condition increment hkeyword hl
      hi hc hsemicolon hn hr _ ih =>
    injection marked with mark
    subst mark
    obtain ⟨d'', s'', longer⟩ := ih rfl
    exact ⟨d'', _, by simpa using Spells.forLoop hkeyword hl hi hc hsemicolon hn hr longer⟩
  | _ => cases marked

/-! ### Every derivation is the text of a tree -/

/-- What is derived from the symbols for statements and declarations. Nothing is said of the
    others. -/
def phraseText : Symbol → List Token → Prop
  | .program, w => ∃ ss, (Phrase.declarations ss).Spells w
  | .declaration, w => ∃ d s, (Phrase.declaration d s).Spells w
  | .classDecl, w => ∃ s, (Phrase.declaration false s).Spells w
  | .funDecl, w => ∃ s, (Phrase.declaration false s).Spells w
  | .varDecl, w => ∃ s, VariableText w s
  | .function, w => ∃ f, (Phrase.function f).Spells w
  | .exprStmt, w => ∃ s, ExpressionText w s
  | .block, w => ∃ l v r ss, w = l :: v ++ [r] ∧ l.kind = .punctuator .leftBrace ∧
      (Phrase.declarations ss).Spells v ∧ r.kind = .punctuator .rightBrace
  | .statement, w => ∃ d s, (Phrase.statement d s).Spells w
  | .forStmt, w => ∃ d s, (Phrase.statement d s).Spells w
  | .ifStmt, w => ∃ d s, (Phrase.statement d s).Spells w
  | .printStmt, w => ∃ d s, (Phrase.statement d s).Spells w
  | .returnStmt, w => ∃ d s, (Phrase.statement d s).Spells w
  | .whileStmt, w => ∃ d s, (Phrase.statement d s).Spells w
  | .parameters, w => ∃ ps, ps.length ≤ maxArity ∧ Separated NameText w ps
  | _, _ => True

/-- What the pieces of a derivation are known to be. -/
def Known (s : Symbol) (w : List Token) : Prop :=
  Derives s w ∧ phraseText s w

section texts

variable {w : List Token}

theorem optionalText_of_known (h : w = [] ∨ Known .expression w) :
    ∃ o, OptionalText w o := by
  rcases h with rfl | known
  · exact ⟨none, .inl ⟨rfl, rfl⟩⟩
  · obtain ⟨e, he⟩ := derives_expression_iff.1 known.1
    exact ⟨some e, .inr ⟨e, rfl, he⟩⟩

theorem declarations_of_known {ws : List (List Token)}
    (h : ∀ u ∈ ws, Known .declaration u) :
    ∃ ss, (Phrase.declarations ss).Spells ws.flatten := by
  induction ws with
  | nil => exact ⟨[], .noDeclarations⟩
  | cons u ws ih =>
    obtain ⟨d, s, hs⟩ := (h u (List.mem_cons_self ..)).2
    obtain ⟨ss, hss⟩ := ih fun v hv => h v (List.mem_cons_of_mem u hv)
    exact ⟨s :: ss, .declarations hs hss⟩

theorem functions_of_known {ws : List (List Token)} (h : ∀ u ∈ ws, Known .function u) :
    ∃ fs, (Phrase.functions fs).Spells ws.flatten := by
  induction ws with
  | nil => exact ⟨[], .noFunctions⟩
  | cons u ws ih =>
    obtain ⟨f, hf⟩ := (h u (List.mem_cons_self ..)).2
    obtain ⟨fs, hfs⟩ := ih fun v hv => h v (List.mem_cons_of_mem u hv)
    exact ⟨f :: fs, .functions hf hfs⟩

theorem classDecl_of_known (h : Fits Known (rule .classDecl) w) :
    ∃ s, (Phrase.declaration false s).Spells w := by
  simp only [rule, fits_seq_word, fits_seq_name, fits_seq_opt, fits_seq_sign, fits_seq_many,
    fits_seq_nil, fits_symbol] at h
  obtain ⟨keyword, _, rfl, hkeyword, name, _, rfl, hname, u, _, rfl, hu, l, _, rfl, hl, ws, _,
    rfl, hws, r, _, rfl, hr, rfl⟩ := h
  have parent : ∃ o, SuperclassText u o := by
    rcases hu with rfl | ⟨less, _, rfl, hless, name, _, rfl, hname, rfl⟩
    · exact ⟨none, .inl ⟨rfl, rfl⟩⟩
    · exact ⟨_, .inr ⟨less, name, 0, rfl, hless, hname, rfl⟩⟩
  obtain ⟨o, ho⟩ := parent
  obtain ⟨fs, hfs⟩ := functions_of_known hws
  exact ⟨_, by simpa using Phrase.Spells.classDecl hkeyword hname ho hl hfs hr⟩

theorem function_of_known (h : Fits Known (rule .function) w) :
    ∃ f, (Phrase.function f).Spells w := by
  simp only [rule, fits_seq_name, fits_seq_sign, fits_seq_opt, fits_seq_symbol, fits_seq_nil,
    fits_symbol] at h
  obtain ⟨name, _, rfl, hname, l, _, rfl, hl, u, _, rfl, hu, r, _, rfl, hr, b, _, rfl, hb,
    rfl⟩ := h
  have params : ∃ ps, ParametersText u ps := by
    rcases hu with rfl | known
    · exact ⟨[], Nat.zero_le _, .inl ⟨rfl, rfl⟩⟩
    · obtain ⟨ps, short, separated⟩ := known.2
      exact ⟨ps, short, .inr separated⟩
  obtain ⟨ps, hps⟩ := params
  obtain ⟨_, l', v, r', ss, rfl, hl', hv, hr'⟩ := hb
  exact ⟨_, by simpa using Phrase.Spells.function hname hl hps hr hl' hv hr'⟩

theorem varDecl_of_known (h : Fits Known (rule .varDecl) w) : ∃ s, VariableText w s := by
  simp only [rule, fits_seq_word, fits_seq_name, fits_seq_opt, fits_seq_sign, fits_seq_symbol,
    fits_seq_nil] at h
  obtain ⟨keyword, _, rfl, hkeyword, name, _, rfl, hname, u, _, rfl, hu, semicolon, _, rfl,
    hsemicolon, rfl⟩ := h
  have initializer : ∃ o, InitializerText u o := by
    rcases hu with rfl | ⟨equals, _, rfl, hequals, v, _, rfl, hv, rfl⟩
    · exact ⟨none, .inl ⟨rfl, rfl⟩⟩
    · obtain ⟨e, he⟩ := derives_expression_iff.1 hv.1
      exact ⟨some e, .inr ⟨equals, v, e, by simp, hequals, rfl, he⟩⟩
  obtain ⟨o, ho⟩ := initializer
  exact ⟨_, keyword, name, u, semicolon, o, by simp, hkeyword, hname, ho, hsemicolon, rfl⟩

theorem forStmt_of_known (h : Fits Known (rule .forStmt) w) :
    ∃ d s, (Phrase.statement d s).Spells w := by
  simp only [rule, fits_seq_word, fits_seq_sign, fits_seq_alt, fits_seq_opt, fits_seq_symbol,
    fits_seq_nil, fits_alt_cons, fits_alt_nil, or_false, fits_symbol, fits_sign] at h
  obtain ⟨keyword, _, rfl, hkeyword, l, _, rfl, hl, i, _, rfl, hi, c, _, rfl, hc, semicolon, _,
    rfl, hsemicolon, n, _, rfl, hn, r, _, rfl, hr, v, _, rfl, hv, rfl⟩ := h
  have initializer : ∃ o, ForInitializerText i o := by
    rcases hi with known | known | ⟨t, rfl, ht⟩
    · obtain ⟨s, hs⟩ := known.2
      exact ⟨some s, .inr ⟨s, rfl, .inl hs⟩⟩
    · obtain ⟨s, hs⟩ := known.2
      exact ⟨some s, .inr ⟨s, rfl, .inr hs⟩⟩
    · exact ⟨none, .inl ⟨t, rfl, ht, rfl⟩⟩
  obtain ⟨init, hinit⟩ := initializer
  obtain ⟨condition, hcondition⟩ := optionalText_of_known hc
  obtain ⟨increment, hincrement⟩ := optionalText_of_known hn
  obtain ⟨d, s, hs⟩ := hv.2
  have loop := Phrase.Spells.forLoop hkeyword hl hinit hcondition hsemicolon hincrement hr hs
  exact ⟨d, _, by simpa using loop⟩

theorem ifStmt_of_known (h : Fits Known (rule .ifStmt) w) :
    ∃ d s, (Phrase.statement d s).Spells w := by
  simp only [rule, fits_seq_word, fits_seq_sign, fits_seq_opt, fits_seq_symbol,
    fits_seq_nil] at h
  obtain ⟨keyword, _, rfl, hkeyword, l, _, rfl, hl, u, _, rfl, hu, r, _, rfl, hr, v, _, rfl, hv,
    x, _, rfl, hx, rfl⟩ := h
  obtain ⟨c, hc⟩ := derives_expression_iff.1 hu.1
  obtain ⟨d, s, hs⟩ := hv.2
  rcases hx with rfl | ⟨word, _, rfl, hword, v', _, rfl, hv', rfl⟩
  · exact ⟨true, _, by simpa using Phrase.Spells.ifThen hkeyword hl hc hr hs⟩
  · obtain ⟨d', t, ht⟩ := hv'.2
    cases d with
    | false => exact ⟨d', _, by simpa using Phrase.Spells.ifElse hkeyword hl hc hr hs hword ht⟩
    | true =>
      -- the `else` belongs to an `if` inside the branch
      obtain ⟨d'', s', longer⟩ := Phrase.attach hs rfl hword ht
      exact ⟨true, _, by simpa using Phrase.Spells.ifThen hkeyword hl hc hr longer⟩

theorem whileStmt_of_known (h : Fits Known (rule .whileStmt) w) :
    ∃ d s, (Phrase.statement d s).Spells w := by
  simp only [rule, fits_seq_word, fits_seq_sign, fits_seq_symbol, fits_seq_nil] at h
  obtain ⟨keyword, _, rfl, hkeyword, l, _, rfl, hl, u, _, rfl, hu, r, _, rfl, hr, v, _, rfl, hv,
    rfl⟩ := h
  obtain ⟨c, hc⟩ := derives_expression_iff.1 hu.1
  obtain ⟨d, s, hs⟩ := hv.2
  exact ⟨d, _, by simpa using Phrase.Spells.whileLoop hkeyword hl hc hr hs⟩

theorem phraseText_of_derives {s : Symbol} (h : Derives s w) : phraseText s w := by
  -- on the derivation; only the rule of `if` has more than one way to put its parts together
  refine h.induct fun s w fits => ?_
  cases s with
  | program =>
    obtain ⟨ws, rfl, all⟩ := fits
    exact declarations_of_known all
  | declaration =>
    rcases fits with known | known | known | known | no
    · obtain ⟨s, hs⟩ := known.2
      exact ⟨false, s, hs⟩
    · obtain ⟨s, hs⟩ := known.2
      exact ⟨false, s, hs⟩
    · obtain ⟨s, hs⟩ := known.2
      exact ⟨false, s, .varDecl hs⟩
    · obtain ⟨d, s, hs⟩ := known.2
      exact ⟨d, s, .statement hs⟩
    · exact no.elim
  | classDecl => exact classDecl_of_known fits
  | funDecl =>
    obtain ⟨keyword, _, rfl, hkeyword, u, _, rfl, hu, rfl⟩ := fits_seq_word.1 fits
    obtain ⟨f, hf⟩ := hu.2
    exact ⟨_, by simpa using Phrase.Spells.funDecl hkeyword hf⟩
  | function => exact function_of_known fits
  | varDecl => exact varDecl_of_known fits
  | statement =>
    rcases fits with known | known | known | known | known | known | known | no
    · obtain ⟨s, hs⟩ := known.2
      exact ⟨false, s, .expression hs⟩
    · exact known.2
    · exact known.2
    · exact known.2
    · exact known.2
    · exact known.2
    · obtain ⟨_, l, v, r, ss, rfl, hl, hv, hr⟩ := known
      exact ⟨false, _, .block hl hv hr⟩
    · exact no.elim
  | exprStmt =>
    simp only [rule, fits_seq_symbol, fits_seq_sign, fits_seq_nil] at fits
    obtain ⟨u, _, rfl, hu, semicolon, _, rfl, hsemicolon, rfl⟩ := fits
    obtain ⟨e, he⟩ := derives_expression_iff.1 hu.1
    exact ⟨_, u, semicolon, e, rfl, he, hsemicolon, rfl⟩
  | forStmt => exact forStmt_of_known fits
  | ifStmt => exact ifStmt_of_known fits
  | printStmt =>
    simp only [rule, fits_seq_word, fits_seq_symbol, fits_seq_sign, fits_seq_nil] at fits
    obtain ⟨keyword, _, rfl, hkeyword, u, _, rfl, hu, semicolon, _, rfl, hsemicolon, rfl⟩ := fits
    obtain ⟨e, he⟩ := derives_expression_iff.1 hu.1
    exact ⟨false, _, .print hkeyword he hsemicolon⟩
  | returnStmt =>
    simp only [rule, fits_seq_word, fits_seq_opt, fits_seq_sign, fits_seq_nil,
      fits_symbol] at fits
    obtain ⟨keyword, _, rfl, hkeyword, u, _, rfl, hu, semicolon, _, rfl, hsemicolon, rfl⟩ := fits
    obtain ⟨o, ho⟩ := optionalText_of_known hu
    exact ⟨false, _, .ret hkeyword ho hsemicolon⟩
  | whileStmt => exact whileStmt_of_known fits
  | block =>
    simp only [rule, fits_seq_sign, fits_seq_many, fits_seq_nil, fits_symbol] at fits
    obtain ⟨l, _, rfl, hl, ws, _, rfl, hws, r, _, rfl, hr, rfl⟩ := fits
    obtain ⟨ss, hss⟩ := declarations_of_known hws
    exact ⟨l, ws.flatten, r, ss, by simp, hl, hss, hr⟩
  | parameters =>
    refine (fits_list fun u => ?_).1 fits
    rw [fits_name]
    rfl
  | _ => trivial

end texts

end Grammar

end Lox
