import Lox.Proofs.Grammar.Phrases

/-! # Reading programs

  A program is read without errors exactly if its tokens are derived from `program`; and
  then the tree is the one whose text they are.

  The rules are followed twice. Backwards: what a rule has read without an error is derived
  from its symbol. Forwards: the text of a phrase is read by its rule, if enough depth is
  left and what follows does not belong to the phrase.
-/

namespace Lox.Grammar

/-! ### What the rules for statements read -/

section soundness

theorem reads_expression_text : Reads nestedExpression fun w _ => Derives .expression w := by
  apply reads_nestedExpression.weaken
  intro w e tight
  exact derives_expression_iff.2 ⟨e, tight⟩

theorem reads_expressionUnless (kind : TokenKind) :
    Reads (expressionUnless kind) fun w _ => w = [] ∨ Derives .expression w := by
  have branches : ∀ stop : Bool,
      Reads (if stop = true then pure none else do return some (← nestedExpression))
        fun w _ => w = [] ∨ Derives .expression w := by
    intro stop
    by_cases found : stop = true
    · rw [if_pos found]
      exact (Reads.pure none).weaken fun w o h => .inl h.1
    · rw [if_neg found]
      apply (reads_expression_text.bind fun e => Reads.pure (some e)).weaken
      intro w o h
      obtain ⟨u, _, e, rfl, derived, rfl, rfl⟩ := h
      exact .inr (by simpa using derived)
  apply ((reads_nextIs kind).bind branches).weaken
  intro w o h
  obtain ⟨_, v, stop, rfl, rfl, holds⟩ := h
  exact holds

theorem reads_expressionStatement :
    Reads expressionStatement fun w _ => Derives .exprStmt w := by
  apply (reads_expression_text.bind fun e =>
    (reads_expect (.punctuator .semicolon) .expressionEnd).bind fun _ => Reads.pure _).weaken
  intro w s h
  obtain ⟨u, _, e, rfl, hu, _, _, semicolon, rfl, ⟨rfl, agrees⟩, rfl, rfl⟩ := h
  have hsemicolon := TokenKind.agrees_punctuator.1 agrees
  rw [derives_iff]
  simp only [rule, fits_seq_symbol, fits_seq_sign, fits_seq_nil]
  exact ⟨u, _, rfl, hu, semicolon, [], rfl, hsemicolon, rfl⟩

theorem reads_printRule {keyword : Token} (hkeyword : keyword.kind = .keyword .printWord) :
    Reads (printRule keyword) fun w _ => Derives .printStmt (keyword :: w) := by
  apply (reads_expression_text.bind fun e =>
    (reads_expect (.punctuator .semicolon) .printEnd).bind fun _ => Reads.pure _).weaken
  intro w s h
  obtain ⟨u, _, e, rfl, hu, _, _, semicolon, rfl, ⟨rfl, agrees⟩, rfl, rfl⟩ := h
  have hsemicolon := TokenKind.agrees_punctuator.1 agrees
  rw [derives_iff]
  simp only [rule, fits_seq_word, fits_seq_symbol, fits_seq_sign, fits_seq_nil]
  exact ⟨keyword, _, rfl, hkeyword, u, _, rfl, hu, semicolon, [], rfl, hsemicolon, rfl⟩

theorem reads_returnRule {keyword : Token} (hkeyword : keyword.kind = .keyword .returnWord) :
    Reads (returnRule keyword) fun w _ => Derives .returnStmt (keyword :: w) := by
  apply ((reads_expressionUnless (.punctuator .semicolon)).bind fun value =>
    (reads_expect (.punctuator .semicolon) .returnEnd).bind fun _ => Reads.pure _).weaken
  intro w s h
  obtain ⟨u, _, value, rfl, hu, _, _, semicolon, rfl, ⟨rfl, agrees⟩, rfl, rfl⟩ := h
  have hsemicolon := TokenKind.agrees_punctuator.1 agrees
  rw [derives_iff]
  simp only [rule, fits_seq_word, fits_seq_opt, fits_symbol, fits_seq_sign, fits_seq_nil]
  exact ⟨keyword, _, rfl, hkeyword, u, _, rfl, hu, semicolon, [], rfl, hsemicolon, rfl⟩

theorem reads_varRule {keyword : Token} (hkeyword : keyword.kind = .keyword .varWord) :
    Reads varRule fun w _ => Derives .varDecl (keyword :: w) := by
  apply ((reads_expect .identifier .variableName).bind fun name =>
    (reads_introducedBy reads_expression_text).bind fun initializer =>
      (reads_expect (.punctuator .semicolon) .variableEnd).bind fun _ => Reads.pure _).weaken
  intro w s h
  obtain ⟨_, _, name, rfl, ⟨rfl, hname⟩, u, _, initializer, rfl, hu, _, _, semicolon, rfl,
    ⟨rfl, agrees⟩, rfl, rfl⟩ := h
  have hsemicolon := TokenKind.agrees_punctuator.1 agrees
  rw [derives_iff]
  simp only [rule, fits_seq_word, fits_seq_name, fits_seq_opt, fits_seq_sign, fits_seq_symbol,
    fits_seq_nil]
  refine ⟨keyword, _, rfl, hkeyword, name, _, rfl, TokenKind.agrees_identifier.1 hname, u, _,
    rfl, ?_, semicolon, [], rfl, hsemicolon, rfl⟩
  rcases hu with ⟨rfl, rfl⟩ | ⟨equals, v, e, rfl, hequals, rfl, hv⟩
  · exact .inl rfl
  · exact .inr ⟨equals, v, rfl, TokenKind.agrees_punctuator.1 hequals, v, [], by simp, hv, rfl⟩

theorem reads_itemsUntil {α : Type} {stop : Parser Bool} {item : Parser α}
    {P : List Token → Prop} (still : Reads stop fun w _ => w = [])
    (h : Reads item fun w _ => P w) (bound : Nat) :
    Reads (itemsUntil stop item bound) fun w _ =>
      ∃ ws : List (List Token), w = ws.flatten ∧ ∀ u ∈ ws, P u := by
  have none : Reads (pure [] : Parser (List α)) fun w _ =>
      ∃ ws : List (List Token), w = ws.flatten ∧ ∀ u ∈ ws, P u :=
    (Reads.pure []).weaken fun w as h => ⟨[], h.1, fun u hu => nomatch hu⟩
  induction bound with
  | zero => exact none
  | succ bound ih =>
    -- looking for the end takes nothing, whatever it finds
    have round : ∀ found : Bool, Reads
        (if found = true then pure [] else do
          let next ← item
          let others ← itemsUntil stop item bound
          return next :: others)
        fun w _ => ∃ ws : List (List Token), w = ws.flatten ∧ ∀ u ∈ ws, P u := by
      intro found
      by_cases yes : found = true
      · rw [if_pos yes]
        exact none
      · rw [if_neg yes]
        apply (h.bind fun next => ih.bind fun others => Reads.pure (next :: others)).weaken
        intro w as holds
        obtain ⟨u, _, next, rfl, hu, _, _, others, rfl, ⟨ws, rfl, all⟩, rfl, rfl⟩ := holds
        refine ⟨u :: ws, by simp, ?_⟩
        intro v hv
        rcases List.mem_cons.1 hv with rfl | later
        · exact hu
        · exact all v later
    apply (still.bind round).weaken
    intro w as holds
    obtain ⟨_, v, found, rfl, rfl, pieces⟩ := holds
    exact pieces

theorem reads_atBodyEnd : Reads atBodyEnd fun w _ => w = [] := by
  apply Reads.of_still (g := fun s =>
    s.rest.isEmpty || s.rest.head?.any (·.kind.agrees (.punctuator .rightBrace)))
  intro s
  rfl

variable {statement : Parser Stmt} {declaration : Parser (Option Stmt)}

/-- The opening brace has been taken before. -/
theorem reads_blockBody (decl : Reads declaration fun w _ => Derives .declaration w) :
    Reads (blockBody declaration) fun w _ =>
      ∀ l : Token, l.kind = .punctuator .leftBrace → Derives .block (l :: w) := by
  apply (reads_remaining.bind fun bound =>
    (reads_itemsUntil reads_atBodyEnd decl bound).bind fun body =>
      (reads_expect (.punctuator .rightBrace) .blockEnd).bind fun _ => Reads.pure _).weaken
  intro w body h l hl
  obtain ⟨_, _, _, rfl, rfl, _, _, _, rfl, ⟨ws, rfl, all⟩, _, _, r, rfl, ⟨rfl, agrees⟩, rfl,
    rfl⟩ := h
  have hr := TokenKind.agrees_punctuator.1 agrees
  rw [derives_iff]
  simp only [rule, fits_seq_sign, fits_seq_many, fits_symbol, fits_seq_nil]
  exact ⟨l, _, rfl, hl, ws, _, rfl, all, r, [], rfl, hr, rfl⟩

theorem reads_ifRule (stmt : Reads statement fun w _ => Derives .statement w) {keyword : Token}
    (hkeyword : keyword.kind = .keyword .ifWord) :
    Reads (ifRule statement) fun w _ => Derives .ifStmt (keyword :: w) := by
  apply ((reads_expect (.punctuator .leftParen) .ifParen).bind fun _ =>
    reads_expression_text.bind fun condition =>
      (reads_expect (.punctuator .rightParen) .ifCondition).bind fun _ =>
        stmt.bind fun thenBranch =>
          (reads_introducedBy stmt).bind fun elseBranch => Reads.pure _).weaken
  intro w s h
  obtain ⟨_, _, l, rfl, ⟨rfl, hl⟩, u, _, c, rfl, hu, _, _, r, rfl, ⟨rfl, hr⟩, v, _, s', rfl, hv,
    x, _, o, rfl, hx, rfl, rfl⟩ := h
  rw [derives_iff]
  simp only [rule, fits_seq_word, fits_seq_sign, fits_seq_opt, fits_seq_symbol, fits_seq_nil]
  refine ⟨keyword, _, rfl, hkeyword, l, _, rfl, TokenKind.agrees_punctuator.1 hl, u, _, rfl, hu,
    r, _, rfl, TokenKind.agrees_punctuator.1 hr, v, _, rfl, hv, x, [], rfl, ?_, rfl⟩
  -- with or without the other branch
  rcases hx with ⟨rfl, rfl⟩ | ⟨word, v', t, rfl, hword, rfl, hv'⟩
  · exact .inl rfl
  · exact .inr ⟨word, v', rfl, TokenKind.agrees_keyword.1 hword, v', [], by simp, hv', rfl⟩

theorem reads_whileRule (stmt : Reads statement fun w _ => Derives .statement w)
    {keyword : Token} (hkeyword : keyword.kind = .keyword .whileWord) :
    Reads (whileRule statement) fun w _ => Derives .whileStmt (keyword :: w) := by
  apply ((reads_expect (.punctuator .leftParen) .whileParen).bind fun _ =>
    reads_expression_text.bind fun condition =>
      (reads_expect (.punctuator .rightParen) .whileCondition).bind fun _ =>
        stmt.bind fun body => Reads.pure _).weaken
  intro w s h
  obtain ⟨_, _, l, rfl, ⟨rfl, hl⟩, u, _, c, rfl, hu, _, _, r, rfl, ⟨rfl, hr⟩, v, _, s', rfl, hv,
    rfl, rfl⟩ := h
  rw [derives_iff]
  simp only [rule, fits_seq_word, fits_seq_sign, fits_seq_symbol, fits_seq_nil]
  exact ⟨keyword, _, rfl, hkeyword, l, _, rfl, TokenKind.agrees_punctuator.1 hl, u, _, rfl, hu,
    r, _, rfl, TokenKind.agrees_punctuator.1 hr, v, [], by simp, hv, rfl⟩

theorem reads_forInitializer :
    Reads (select forInitializerRule? (some <$> expressionStatement)) fun w _ =>
      Derives .varDecl w ∨ Derives .exprStmt w ∨
        ∃ t, w = [t] ∧ t.kind = .punctuator .semicolon := by
  apply reads_select
  · intro token initializer chosen
    unfold forInitializerRule? at chosen
    split at chosen
    · next kind =>
      cases chosen
      apply (Reads.pure none).weaken
      intro w o h
      obtain ⟨rfl, rfl⟩ := h
      exact .inr (.inr ⟨token, rfl, kind⟩)
    · next kind =>
      cases chosen
      exact ((reads_varRule kind).map some).weaken fun w o h => .inl h.choose_spec.1
    · cases chosen
  · exact (reads_expressionStatement.map some).weaken fun w o h =>
      .inr (.inl h.choose_spec.1)

theorem reads_forRule (stmt : Reads statement fun w _ => Derives .statement w)
    {keyword : Token} (hkeyword : keyword.kind = .keyword .forWord) :
    Reads (forRule statement) fun w _ => Derives .forStmt (keyword :: w) := by
  apply ((reads_expect (.punctuator .leftParen) .forParen).bind fun _ =>
    reads_forInitializer.bind fun initializer =>
      (reads_expressionUnless (.punctuator .semicolon)).bind fun condition =>
        (reads_expect (.punctuator .semicolon) .forCondition).bind fun _ =>
          (reads_expressionUnless (.punctuator .rightParen)).bind fun increment =>
            (reads_expect (.punctuator .rightParen) .forClauses).bind fun _ =>
              stmt.bind fun body => Reads.pure _).weaken
  intro w s h
  obtain ⟨_, _, l, rfl, ⟨rfl, hl⟩, i, _, _, rfl, hi, c, _, _, rfl, hc, _, _, semicolon, rfl,
    ⟨rfl, hsemicolon⟩, n, _, _, rfl, hn, _, _, r, rfl, ⟨rfl, hr⟩, v, _, s', rfl, hv, rfl,
    rfl⟩ := h
  rw [derives_iff]
  simp only [rule, fits_seq_word, fits_seq_sign, fits_seq_alt, fits_seq_opt, fits_seq_symbol,
    fits_seq_nil, fits_alt_cons, fits_alt_nil, or_false, fits_symbol, fits_sign]
  exact ⟨keyword, _, rfl, hkeyword, l, _, rfl, TokenKind.agrees_punctuator.1 hl, i, _, rfl, hi,
    c, _, rfl, hc, semicolon, _, rfl, TokenKind.agrees_punctuator.1 hsemicolon, n, _, rfl, hn,
    r, _, rfl, TokenKind.agrees_punctuator.1 hr, v, [], by simp, hv, rfl⟩

/-- What is derived from one of the forms of a statement is derived from `statement`. -/
theorem derives_statement {s : Symbol} {w : List Token} (h : Derives s w)
    (form : s ∈ [.exprStmt, .forStmt, .ifStmt, .printStmt, .returnStmt, .whileStmt, .block]) :
    Derives .statement w := by
  rw [derives_iff]
  simp only [rule, fits_alt_cons, fits_alt_nil, fits_symbol]
  simp only [List.mem_cons, List.not_mem_nil, or_false] at form
  rcases form with rfl | rfl | rfl | rfl | rfl | rfl | rfl <;> simp only [h, true_or, or_true]

theorem reads_anyStatement (stmt : Reads statement fun w _ => Derives .statement w)
    (decl : Reads declaration fun w _ => Derives .declaration w) :
    Reads (anyStatement statement declaration) fun w _ => Derives .statement w := by
  apply reads_select
  · intro token rule chosen
    unfold statementRule? at chosen
    split at chosen
    all_goals cases chosen
    -- the token that chose a rule is the first one of what is derived
    case h_1 kind =>
      exact (reads_forRule stmt kind).weaken fun w s h => derives_statement h (by decide)
    case h_2 kind =>
      exact (reads_ifRule stmt kind).weaken fun w s h => derives_statement h (by decide)
    case h_3 kind =>
      exact (reads_printRule kind).weaken fun w s h => derives_statement h (by decide)
    case h_4 kind =>
      exact (reads_returnRule kind).weaken fun w s h => derives_statement h (by decide)
    case h_5 kind =>
      exact (reads_whileRule stmt kind).weaken fun w s h => derives_statement h (by decide)
    case h_6 kind =>
      apply ((reads_blockBody decl).map Stmt.block).weaken
      intro w s h
      obtain ⟨body, derived, _⟩ := h
      exact derives_statement (derived token kind) (by decide)
  · exact reads_expressionStatement.weaken fun w s h => derives_statement h (by decide)

theorem reads_parameter (count : Nat) :
    Reads (parameter count) fun w name => count < maxArity ∧ NameText w name := by
  have name : Reads (expect .identifier .parameterName) NameText := by
    apply (reads_expect .identifier .parameterName).weaken
    intro w t h
    exact ⟨h.1, TokenKind.agrees_identifier.1 h.2⟩
  exact reads_limited name .tooManyParameters count

theorem derives_parameters {w : List Token} {params : List Token}
    (short : params.length ≤ maxArity) (h : Separated NameText w params) :
    Derives .parameters w := by
  rw [derives_iff]
  have item : ∀ u, Fits Derives .name u ↔ ∃ t, NameText u t := fun u => fits_name
  exact (fits_list item).2 ⟨params, short, h⟩

theorem reads_routine (kind : Routine)
    (decl : Reads declaration fun w _ => Derives .declaration w) :
    Reads (routine kind declaration) fun w _ => Derives .function w := by
  apply ((reads_expect .identifier (.routineName kind)).bind fun name =>
    (reads_expect (.punctuator .leftParen) (.routineParen kind)).bind fun _ =>
      (reads_itemsBeforeParen reads_parameter).bind fun params =>
        (reads_expect (.punctuator .rightParen) .parametersParen).bind fun _ =>
          (reads_expect (.punctuator .leftBrace) (.routineBody kind)).bind fun _ =>
            (reads_blockBody decl).bind fun body => Reads.pure _).weaken
  intro w f h
  obtain ⟨_, _, name, rfl, ⟨rfl, hname⟩, _, _, l, rfl, ⟨rfl, hl⟩, u, _, params, rfl,
    ⟨short, hu⟩, _, _, r, rfl, ⟨rfl, hr⟩, _, _, b, rfl, ⟨rfl, hb⟩, v, _, _, rfl, hv, rfl,
    rfl⟩ := h
  have derived := hv b (TokenKind.agrees_punctuator.1 hb)
  rw [derives_iff]
  simp only [rule, fits_seq_name, fits_seq_sign, fits_seq_opt, fits_seq_symbol, fits_seq_nil,
    fits_symbol]
  refine ⟨name, _, rfl, TokenKind.agrees_identifier.1 hname, l, _, rfl,
    TokenKind.agrees_punctuator.1 hl, u, _, rfl, ?_, r, _, rfl,
    TokenKind.agrees_punctuator.1 hr, b :: v, [], by simp, derived, rfl⟩
  rcases hu with ⟨rfl, rfl⟩ | separated
  · exact .inl rfl
  · exact .inr (derives_parameters short separated)

theorem reads_classRule (decl : Reads declaration fun w _ => Derives .declaration w)
    {keyword : Token} (hkeyword : keyword.kind = .keyword .classWord) :
    Reads (classRule declaration) fun w _ => Derives .classDecl (keyword :: w) := by
  have parent : Reads superclassName fun w _ => ∃ name, NameText w name := by
    apply ((reads_expect .identifier .superclassName).bind fun name =>
      reads_freshNode.bind fun _ => Reads.pure _).weaken
    intro w e h
    obtain ⟨_, _, name, rfl, ⟨rfl, hname⟩, _, _, _, rfl, rfl, rfl, rfl⟩ := h
    exact ⟨name, rfl, TokenKind.agrees_identifier.1 hname⟩
  apply ((reads_expect .identifier .className).bind fun name =>
    (reads_introducedBy parent).bind fun superclass =>
      (reads_expect (.punctuator .leftBrace) .classBody).bind fun _ =>
        reads_remaining.bind fun bound =>
          (reads_itemsUntil reads_atBodyEnd (reads_routine .method decl) bound).bind fun _ =>
            (reads_expect (.punctuator .rightBrace) .classEnd).bind fun _ =>
              Reads.pure _).weaken
  intro w s h
  obtain ⟨_, _, name, rfl, ⟨rfl, hname⟩, u, _, _, rfl, hu, _, _, l, rfl, ⟨rfl, hl⟩, _, _, _,
    rfl, rfl, _, _, _, rfl, ⟨ws, rfl, all⟩, _, _, r, rfl, ⟨rfl, hr⟩, rfl, rfl⟩ := h
  rw [derives_iff]
  simp only [rule, fits_seq_word, fits_seq_name, fits_seq_opt, fits_seq_sign, fits_seq_many,
    fits_seq_nil, fits_symbol]
  refine ⟨keyword, _, rfl, hkeyword, name, _, rfl, TokenKind.agrees_identifier.1 hname, u, _,
    rfl, ?_, l, _, rfl, TokenKind.agrees_punctuator.1 hl, ws, _, by simp, all, r, [], rfl,
    TokenKind.agrees_punctuator.1 hr, rfl⟩
  rcases hu with ⟨rfl, rfl⟩ | ⟨less, v, e, rfl, hless, rfl, parentName, rfl, hparent⟩
  · exact .inl rfl
  · exact .inr ⟨less, _, rfl, TokenKind.agrees_punctuator.1 hless, parentName, [], rfl, hparent,
      rfl⟩

/-- Recovering from an error leaves it recorded, so a quiet run has not done so. -/
theorem reads_recovering {α : Type} {rule : Parser α} {P : List Token → α → Prop}
    (h : Reads rule P) :
    Reads (recovering rule) fun w o => ∃ a, o = some a ∧ P w a := by
  constructor
  · intro s
    have kept := h.keeps s
    unfold recovering
    cases run : rule s with
    | ok a s' =>
      rw [run] at kept
      exact kept
    | error e s' =>
      rw [run] at kept
      exact kept.trans (List.prefix_append _ _)
  · intro s o s'' run quiet
    unfold recovering at run
    cases hrule : rule s with
    | ok a s' =>
      rw [hrule] at run
      cases run
      obtain ⟨w, split, holds⟩ := h.takes hrule quiet
      exact ⟨w, split, a, rfl, holds⟩
    | error e s' =>
      rw [hrule] at run
      cases run
      -- one error more at the end than before the rule
      have longer := (h.keeps_error hrule).length_le
      have same := congrArg List.length quiet
      rw [List.length_append, List.length_singleton] at same
      omega

theorem derives_declaration {s : Symbol} {w : List Token} (h : Derives s w)
    (form : s ∈ [.classDecl, .funDecl, .varDecl, .statement]) : Derives .declaration w := by
  rw [derives_iff]
  simp only [rule, fits_alt_cons, fits_alt_nil, fits_symbol]
  simp only [List.mem_cons, List.not_mem_nil, or_false] at form
  rcases form with rfl | rfl | rfl | rfl <;> simp only [h, true_or, or_true]

theorem reads_anyDeclaration (stmt : Reads statement fun w _ => Derives .statement w)
    (decl : Reads declaration fun w _ => Derives .declaration w) :
    Reads (anyDeclaration statement declaration) fun w _ => Derives .declaration w := by
  have read : Reads (select (declarationRule? declaration) (anyStatement statement declaration))
      fun w _ => Derives .declaration w := by
    apply reads_select
    · intro token rule chosen
      unfold declarationRule? at chosen
      split at chosen
      all_goals cases chosen
      case h_1 kind =>
        exact (reads_classRule decl kind).weaken fun w s h => derives_declaration h (by decide)
      case h_2 kind =>
        apply ((reads_routine .function decl).map Stmt.funDecl).weaken
        intro w s h
        obtain ⟨f, derived, _⟩ := h
        refine derives_declaration (s := .funDecl) ?_ (by decide)
        rw [derives_iff]
        exact fits_seq_word.2 ⟨token, w, rfl, kind, w, [], by simp, derived, rfl⟩
      case h_3 kind =>
        exact (reads_varRule kind).weaken fun w s h => derives_declaration h (by decide)
    · exact (reads_anyStatement stmt decl).weaken fun w s h => derives_declaration h (by decide)
  exact (reads_recovering read).weaken fun w o h => h.choose_spec.2

end soundness

/-- What is read quietly as a statement or declaration is derived as one. -/
theorem reads_statement_declaration (depth : Nat) :
    Reads (statement depth) (fun w _ => Derives .statement w) ∧
      Reads (declaration depth) (fun w _ => Derives .declaration w) := by
  induction depth with
  | zero =>
    -- without depth every token is refused
    rw [statement, declaration]
    refine ⟨(reads_reject .expression).weaken fun _ _ no => no.elim, ?_⟩
    exact (reads_recovering (reads_reject .expression)).weaken fun _ _ h =>
      h.choose_spec.2.elim
  | succ depth ih =>
    rw [statement, declaration]
    exact ⟨reads_anyStatement ih.1 ih.2, reads_anyDeclaration ih.1 ih.2⟩

end Lox.Grammar
