import Lox.Proofs.Grammar.ProgramReading

/-! # Texts of programs

  The text of a phrase is read by the rule for it and yields its tree, up to the identities
  of nodes. The induction is over the rules of `Phrase.Spells`; what it says of each kind of
  phrase is `Phrase.IsRead`.
-/

namespace Lox.Grammar

/-! ### How phrases start -/

/-- Whether a declaration may start with a token of this kind: what must not be mistaken for
    the end of a block or for the other branch of an `if`. -/
def mayStartDeclaration : TokenKind → Bool
  | .punctuator .rightBrace => false
  | .keyword .elseWord => false
  | _ => true

/-- Whether a statement may start with a token of this kind. -/
def mayStartStatement : TokenKind → Bool
  | .keyword .classWord => false
  | .keyword .funWord => false
  | .keyword .varWord => false
  | kind => mayStartDeclaration kind

theorem mayStartStatement_of_expression {kind : TokenKind} (h : startsExpression kind = true) :
    mayStartStatement kind = true := by
  cases kind with
  | punctuator p => cases p <;> first | rfl | cases h
  | keyword k => cases k <;> first | rfl | cases h
  | _ => rfl

theorem mayStartDeclaration_of_statement {kind : TokenKind}
    (h : mayStartStatement kind = true) : mayStartDeclaration kind = true := by
  unfold mayStartStatement at h
  split at h
  · cases h
  · cases h
  · cases h
  · exact h

theorem Phrase.Spells.starts_statement {d : Bool} {s : Stmt} {w : List Token}
    (h : (Phrase.statement d s).Spells w) :
    ∃ t v, w = t :: v ∧ mayStartStatement t.kind = true := by
  cases h with
  | expression text =>
    obtain ⟨v, semicolon, e, rfl, he, _⟩ := text
    obtain ⟨t, v', rfl, ht⟩ := he.starts
    exact ⟨t, _, rfl, mayStartStatement_of_expression ht⟩
  | print kind | ret kind | block kind | ifThen kind | ifElse kind | whileLoop kind
  | forLoop kind => exact ⟨_, _, rfl, by rw [kind]; rfl⟩

theorem Phrase.Spells.starts_declaration {d : Bool} {s : Stmt} {w : List Token}
    (h : (Phrase.declaration d s).Spells w) :
    ∃ t v, w = t :: v ∧ mayStartDeclaration t.kind = true := by
  cases h with
  | statement h =>
    obtain ⟨t, v, hw, ht⟩ := h.starts_statement
    exact ⟨t, v, hw, mayStartDeclaration_of_statement ht⟩
  | varDecl text =>
    obtain ⟨keyword, name, v, semicolon, initializer, rfl, kind, _⟩ := text
    exact ⟨_, _, rfl, by rw [kind]; rfl⟩
  | funDecl kind | classDecl kind => exact ⟨_, _, rfl, by rw [kind]; rfl⟩

/-- No `else` comes next. -/
def NoElse (rest : List Token) : Prop :=
  ∀ t, rest.head? = some t → t.kind ≠ .keyword .elseWord

theorem noElse_cons {t : Token} (h : mayStartDeclaration t.kind = true) (rest : List Token) :
    NoElse (t :: rest) := by
  intro t' ht' kind
  cases ht'
  rw [kind] at h
  cases h

/-! ### Simple statements -/

section simple

variable {w rest : List Token}

theorem takes_expressionStatement {s : Stmt} (h : ExpressionText w s) :
    Takes expressionStatement w rest fun s' => s'.bare = s.bare := by
  obtain ⟨v, semicolon, e, rfl, he, hsemicolon, rfl⟩ := h
  have after : Separates ([semicolon] ++ rest) := separates_cons rest hsemicolon (by decide)
  apply (takes_nestedExpression he after).bind
  intro e' he'
  apply (takes_expect rest (TokenKind.agrees_punctuator.2 hsemicolon)).bind_last
  intro _ _
  exact .pure _ (by simp only [Stmt.bare, he'])

/-- An optional expression before a token that ends it and starts none. -/
theorem takes_expressionUnless {t : Token} {kind : TokenKind} (ht : t.kind = kind)
    (separates : Separates (t :: rest)) (starts : startsExpression kind = false)
    {o : Option Expr} (h : OptionalText w o) :
    Takes (expressionUnless kind) w (t :: rest)
      fun o' => o'.map Expr.bare = o.map Expr.bare := by
  apply (takes_nextIs kind (w ++ t :: rest)).bind_still
  intro found hfound
  rcases h with ⟨rfl, rfl⟩ | ⟨e, rfl, he⟩
  · have yes : found = true := by
      rw [hfound, ← ht]
      exact TokenKind.agrees_refl t.kind
    rw [if_pos yes]
    exact .pure none rfl
  · -- no expression starts with the token that ends its place
    have no : ¬ found = true := by
      obtain ⟨t', v, rfl, ht'⟩ := he.starts
      rw [hfound]
      intro agrees
      have same : startsExpression t'.kind = startsExpression kind := by
        change t'.kind.agrees kind = true at agrees
        cases hk : t'.kind <;> cases kind <;> simp_all [TokenKind.agrees, startsExpression,
          startsPrimary, isPrefixOperator]
      rw [ht', starts] at same
      cases same
    rw [if_neg no]
    apply (takes_nestedExpression he separates).bind_last
    intro e' he'
    exact .pure _ (by rw [Option.map_some, Option.map_some, he'])

theorem takes_printRule {keyword semicolon : Token} {e : Expr} (he : Tight 0 w e)
    (hsemicolon : semicolon.kind = .punctuator .semicolon) :
    Takes (printRule keyword) (w ++ [semicolon]) rest
      fun s => s.bare = (Stmt.print keyword e).bare := by
  have after : Separates ([semicolon] ++ rest) := separates_cons rest hsemicolon (by decide)
  apply (takes_nestedExpression he after).bind
  intro e' he'
  apply (takes_expect rest (TokenKind.agrees_punctuator.2 hsemicolon)).bind_last
  intro _ _
  exact .pure _ (by simp only [Stmt.bare, he'])

theorem takes_returnRule {keyword semicolon : Token} {o : Option Expr} (h : OptionalText w o)
    (hsemicolon : semicolon.kind = .punctuator .semicolon) :
    Takes (returnRule keyword) (w ++ [semicolon]) rest
      fun s => s.bare = (Stmt.ret keyword o).bare := by
  have after : Separates (semicolon :: rest) := separates_cons rest hsemicolon (by decide)
  have value := takes_expressionUnless hsemicolon after rfl h
  apply Takes.bind value
  intro o' ho'
  apply (takes_expect rest (TokenKind.agrees_punctuator.2 hsemicolon)).bind_last
  intro _ _
  exact .pure _ (by simp only [Stmt.bare, ho'])

/-- The keyword has been taken before. -/
theorem takes_varRule {keyword : Token} {s : Stmt} (h : VariableText (keyword :: w) s) :
    Takes varRule w rest fun s' => s'.bare = s.bare := by
  obtain ⟨_, name, v, semicolon, initializer, hw, _, hname, hv, hsemicolon, rfl⟩ := h
  injection hw with _ hw
  subst hw
  have after : Separates ([semicolon] ++ rest) := separates_cons rest hsemicolon (by decide)
  apply (takes_expect _ (TokenKind.agrees_identifier.2 hname)).bind (v := v ++ [semicolon])
  intro name' hname'
  subst hname'
  have value : Takes (introducedBy (.punctuator .equal) nestedExpression) v
      ([semicolon] ++ rest) fun o => o.map Expr.bare = initializer.map Expr.bare := by
    -- behind the name there is an equals sign, or the semicolon at once
    rcases hv with ⟨rfl, rfl⟩ | ⟨equals, u, e, rfl, hequals, rfl, he⟩
    · apply (takes_introducedBy_none _).weaken
      · intro o ho
        rw [ho]
      · intro t ht
        cases ht
        rw [hsemicolon]
        rfl
    · apply (takes_introducedBy (TokenKind.agrees_punctuator.2 hequals)
        (takes_nestedExpression he after)).weaken
      intro o ho
      obtain ⟨e', rfl, he'⟩ := ho
      rw [Option.map_some, Option.map_some, he']
  apply value.bind
  intro o ho
  apply (takes_expect rest (TokenKind.agrees_punctuator.2 hsemicolon)).bind_last
  intro _ _
  exact .pure _ (by simp only [Stmt.bare, ho])

theorem takes_forInitializer {o : Option Stmt} (h : ForInitializerText w o) :
    Takes (select forInitializerRule? (some <$> expressionStatement)) w rest
      fun o' => o'.map Stmt.bare = o.map Stmt.bare := by
  rcases h with ⟨semicolon, rfl, hsemicolon, rfl⟩ | ⟨s, rfl, text | text⟩
  · have chosen : forInitializerRule? semicolon = some (pure none) := by
      unfold forInitializerRule?
      rw [hsemicolon]
    exact takes_select chosen (.pure none rfl)
  · have whole := text
    obtain ⟨keyword, name, v, semicolon, initializer, rfl, hkeyword, _⟩ := text
    have chosen : forInitializerRule? keyword = some (some <$> varRule) := by
      unfold forInitializerRule?
      rw [hkeyword]
    apply takes_select chosen
    apply (takes_varRule whole).map
    intro s' hs'
    rw [Option.map_some, Option.map_some, hs']
  · -- neither a semicolon nor `var` starts an expression
    have starts : ∃ t v, w = t :: v ∧ startsExpression t.kind = true := by
      obtain ⟨v, semicolon, e, rfl, he, _⟩ := text
      obtain ⟨t, v', rfl, ht⟩ := he.starts
      exact ⟨t, _, rfl, ht⟩
    obtain ⟨t, v, rfl, ht⟩ := starts
    apply takes_select_otherwise
    · intro t' ht'
      cases ht'
      unfold forInitializerRule?
      split
      · next kind =>
        rw [kind] at ht
        cases ht
      · next kind =>
        rw [kind] at ht
        cases ht
      · rfl
    · apply (takes_expressionStatement text).map
      intro s' hs'
      rw [Option.map_some, Option.map_some, hs']

end simple

theorem forLoop_eq (initializer : Option Stmt) (condition increment : Option Expr)
    (body : Stmt) :
    forLoop initializer condition increment body =
      forTree initializer condition increment body := by
  cases initializer <;> cases increment <;> rfl

/-! ### What is said of each kind of phrase -/

/-- A test for the end of a sequence of declarations: it finds the end at `rest`, and nowhere
    where a declaration starts. -/
structure Ends (stop : Parser Bool) (rest : List Token) : Prop where
  found : Takes stop [] rest fun b => b = true
  passed : ∀ t v, mayStartDeclaration t.kind = true →
    Takes stop [] (t :: v) fun b => b = false
  noElse : NoElse rest

theorem ends_atEnd : Ends atEnd [] := by
  refine ⟨takes_atEnd [], ?_, fun t ht => nomatch ht⟩
  intro t v _
  exact takes_atEnd (t :: v)

theorem ends_atBodyEnd {r : Token} (hr : r.kind = .punctuator .rightBrace)
    (rest : List Token) : Ends atBodyEnd (r :: rest) := by
  have answer : ∀ (t : Token) (v : List Token), Takes atBodyEnd [] (t :: v)
      fun b => b = t.kind.agrees (.punctuator .rightBrace) := by
    intro t v recorded fresh
    exact ⟨_, fresh, rfl, rfl⟩
  refine ⟨?_, ?_, ?_⟩
  · apply (answer r rest).weaken
    intro b hb
    rw [hb, hr]
    rfl
  · intro t v ht
    apply (answer t v).weaken
    intro b hb
    rw [hb, ← Bool.not_eq_true, TokenKind.agrees_punctuator]
    intro kind
    rw [kind] at ht
    cases ht
  · intro t ht kind
    cases ht
    rw [hr] at kind
    cases kind

/-- The rule for a phrase takes its text, given as much depth as there are tokens, in front
    of what does not belong to the phrase. -/
def Phrase.IsRead : Phrase → List Token → Prop
  | .statement d s, w => ∀ depth rest, w.length ≤ depth → (d = true → NoElse rest) →
      Takes (Grammar.statement depth) w rest fun s' => s'.bare = s.bare
  | .declaration d s, w => ∀ depth rest, w.length ≤ depth → (d = true → NoElse rest) →
      Takes (Grammar.declaration depth) w rest fun o => ∃ s', o = some s' ∧ s'.bare = s.bare
  | .declarations ss, w => ∀ depth stop bound rest, w.length ≤ depth → w.length ≤ bound →
      Ends stop rest → Takes (itemsUntil stop (Grammar.declaration depth) bound) w rest
        fun os => Stmt.bareAll (os.filterMap id) = Stmt.bareAll ss
  | .function f, w => ∀ kind depth rest, w.length ≤ depth →
      Takes (routine kind (Grammar.declaration depth)) w rest fun f' => f'.bare = f.bare
  | .functions fs, w => ∀ depth bound rest, w.length ≤ depth → w.length ≤ bound →
      Ends atBodyEnd rest →
      Takes (itemsUntil atBodyEnd (routine .method (Grammar.declaration depth)) bound) w rest
        fun fs' => FunctionDecl.bareAll fs' = FunctionDecl.bareAll fs

/-! ### Sequences -/

/-- A sequence that has no more items ends, whether or not its bound is reached. -/
theorem takes_itemsUntil_nil {α : Type} {stop : Parser Bool} {item : Parser α}
    {rest : List Token} (h : Takes stop [] rest fun b => b = true) (bound : Nat) :
    Takes (itemsUntil stop item bound) [] rest fun as => as = [] := by
  cases bound with
  | zero => exact .pure [] rfl
  | succ bound =>
    apply h.bind_still
    intro found yes
    rw [if_pos yes]
    exact .pure [] rfl

/-- A sequence goes on where an item starts. -/
theorem takes_itemsUntil_cons {α : Type} {stop : Parser Bool} {item : Parser α}
    {u v rest : List Token} {bound : Nat} {P : α → Prop} {R S : List α → Prop}
    (passed : Takes stop [] (u ++ v ++ rest) fun b => b = false)
    (first : Takes item u (v ++ rest) P)
    (others : Takes (itemsUntil stop item bound) v rest R)
    (made : ∀ a as, P a → R as → S (a :: as)) :
    Takes (itemsUntil stop item (bound + 1)) (u ++ v) rest S := by
  apply passed.bind_still
  intro found no
  subst no
  rw [if_neg Bool.false_ne_true]
  apply first.bind
  intro a ha
  apply others.bind_last
  intro as has
  exact .pure _ (made a as ha has)

theorem isRead_declarations {u v : List Token} {s : Stmt} {ss : List Stmt} {d : Bool}
    (hs : (Phrase.declaration d s).Spells u) (hv : (Phrase.declarations ss).Spells v)
    (first : (Phrase.declaration d s).IsRead u) (others : (Phrase.declarations ss).IsRead v) :
    (Phrase.declarations (s :: ss)).IsRead (u ++ v) := by
  intro depth stop bound rest deep long ends
  rw [List.length_append] at deep long
  obtain ⟨t, u', hu, ht⟩ := hs.starts_declaration
  have nonempty : 0 < u.length := by
    rw [hu]
    exact Nat.succ_pos _
  obtain ⟨bound, rfl⟩ : ∃ b, bound = b + 1 := ⟨bound - 1, by omega⟩
  -- what follows is the next declaration or the end, and neither is an `else`
  have noElse : NoElse (v ++ rest) := by
    cases hv with
    | noDeclarations => exact ends.noElse
    | declarations next _ =>
      obtain ⟨t', v', rfl, ht'⟩ := next.starts_declaration
      exact noElse_cons ht' _
  have passed : Takes stop [] (u ++ v ++ rest) fun b => b = false := by
    rw [hu]
    exact ends.passed t _ ht
  apply takes_itemsUntil_cons passed (first depth (v ++ rest) (by omega) fun _ => noElse)
    (others depth stop bound rest (by omega) (by omega) ends)
  intro o os ho hos
  obtain ⟨s', rfl, hs'⟩ := ho
  rw [List.filterMap_cons_some (f := id) rfl, Stmt.bareAll, Stmt.bareAll, hs', hos]

theorem isRead_functions {u v : List Token} {f : FunctionDecl} {fs : List FunctionDecl}
    (hf : (Phrase.function f).Spells u) (first : (Phrase.function f).IsRead u)
    (others : (Phrase.functions fs).IsRead v) :
    (Phrase.functions (f :: fs)).IsRead (u ++ v) := by
  intro depth bound rest deep long ends
  rw [List.length_append] at deep long
  have starts : ∃ t u', u = t :: u' ∧ t.kind = .identifier := by
    cases hf with
    | function kind => exact ⟨_, _, rfl, kind⟩
  obtain ⟨t, u', hu, ht⟩ := starts
  have nonempty : 0 < u.length := by
    rw [hu]
    exact Nat.succ_pos _
  obtain ⟨bound, rfl⟩ : ∃ b, bound = b + 1 := ⟨bound - 1, by omega⟩
  have passed : Takes atBodyEnd [] (u ++ v ++ rest) fun b => b = false := by
    rw [hu]
    exact ends.passed t _ (by rw [ht]; rfl)
  apply takes_itemsUntil_cons passed (first .method depth (v ++ rest) (by omega))
    (others depth bound rest (by omega) (by omega) ends)
  intro f' fs' hf' hfs'
  rw [FunctionDecl.bareAll, FunctionDecl.bareAll, hf', hfs']

theorem takes_recovering {α : Type} {rule : Parser α} {w rest : List Token} {P : α → Prop}
    (h : Takes rule w rest P) :
    Takes (recovering rule) w rest fun o => ∃ a, o = some a ∧ P a := by
  intro recorded fresh
  obtain ⟨a, fresh', run, holds⟩ := h recorded fresh
  refine ⟨some a, fresh', ?_, a, rfl, holds⟩
  unfold recovering
  rw [run]

/-- The opening brace has been taken before. -/
theorem takes_blockBody {w : List Token} {ss : List Stmt} {r : Token}
    (body : (Phrase.declarations ss).IsRead w) (hr : r.kind = .punctuator .rightBrace)
    {depth : Nat} (deep : w.length ≤ depth) (rest : List Token) :
    Takes (blockBody (declaration depth)) (w ++ [r]) rest
      fun ss' => Stmt.bareAll ss' = Stmt.bareAll ss := by
  apply (takes_remaining (w ++ [r] ++ rest)).bind_still
  intro bound hbound
  have enough : w.length ≤ bound := by
    rw [hbound, List.append_assoc, List.length_append]
    exact Nat.le_add_right _ _
  have items := body depth atBodyEnd bound ([r] ++ rest) deep enough (ends_atBodyEnd hr rest)
  apply items.bind
  intro os hos
  apply (takes_expect rest (TokenKind.agrees_punctuator.2 hr)).bind_last
  intro _ _
  exact .pure _ hos

/-! ### Statements -/

/-- A statement whose first token chooses its rule. The rule has depth enough for all
    tokens after that one. -/
theorem isRead_chosen {d : Bool} {s : Stmt} {token : Token} {w : List Token}
    (h : ∀ depth rest, w.length ≤ depth → (d = true → NoElse rest) →
      ∃ rule, statementRule? (statement depth) (declaration depth) token = some rule ∧
        Takes rule w rest fun s' => s'.bare = s.bare) :
    (Phrase.statement d s).IsRead (token :: w) := by
  intro depth rest deep noElse
  rw [List.length_cons] at deep
  obtain ⟨depth, rfl⟩ : ∃ n, depth = n + 1 := ⟨depth - 1, by omega⟩
  rw [statement]
  obtain ⟨rule, chosen, taken⟩ := h depth rest (by omega) noElse
  exact takes_select chosen taken

theorem isRead_expression {w : List Token} {s : Stmt} (h : ExpressionText w s) :
    (Phrase.statement false s).IsRead w := by
  intro depth rest deep _
  have starts : ∃ t v, w = t :: v ∧ startsExpression t.kind = true := by
    obtain ⟨v, semicolon, e, rfl, he, _⟩ := h
    obtain ⟨t, v', rfl, ht⟩ := he.starts
    exact ⟨t, _, rfl, ht⟩
  obtain ⟨t, v, rfl, ht⟩ := starts
  rw [List.length_cons] at deep
  obtain ⟨depth, rfl⟩ : ∃ n, depth = n + 1 := ⟨depth - 1, by omega⟩
  rw [statement]
  apply takes_select_otherwise _ (takes_expressionStatement h)
  intro t' ht'
  cases ht'
  -- none of the tokens that choose a rule starts an expression
  unfold statementRule?
  split
  all_goals first
    | rfl
    | next kind =>
      rw [kind] at ht
      cases ht

theorem isRead_ifThen {keyword l r : Token} {u v : List Token} {c : Expr} {s : Stmt} {d : Bool}
    (hkeyword : keyword.kind = .keyword .ifWord) (hl : l.kind = .punctuator .leftParen)
    (hc : Tight 0 u c) (hr : r.kind = .punctuator .rightParen)
    (branch : (Phrase.statement d s).IsRead v) :
    (Phrase.statement true (.ifElse c s none)).IsRead (keyword :: l :: u ++ r :: v) := by
  show Phrase.IsRead _ (keyword :: (l :: (u ++ r :: v)))
  apply isRead_chosen
  intro depth rest deep noElse
  refine ⟨ifRule (statement depth), ?_, ?_⟩
  · unfold statementRule?
    rw [hkeyword]
  simp only [List.length_append, List.length_cons] at deep
  apply (takes_expect _ (TokenKind.agrees_punctuator.2 hl)).bind (v := u ++ r :: v)
  intro _ _
  apply (takes_nestedExpression hc (separates_cons (v ++ rest) hr (by decide))).bind
    (v := r :: v)
  intro c' hc'
  apply (takes_expect (v ++ rest) (TokenKind.agrees_punctuator.2 hr)).bind (v := v)
  intro _ _
  apply (branch depth rest (by omega) fun _ => noElse rfl).bind_last
  intro s' hs'
  -- nothing follows that could be the other branch
  have absent : ∀ t, rest.head? = some t → t.kind.agrees (.keyword .elseWord) = false := by
    intro t ht
    rw [← Bool.not_eq_true, TokenKind.agrees_keyword]
    exact noElse rfl t ht
  apply (takes_introducedBy_none absent).bind_last
  intro o ho
  subst ho
  exact .pure _ (by simp only [Stmt.bare, Stmt.bareElse, hc', hs'])

theorem isRead_ifElse {keyword l r word : Token} {u v w : List Token} {c : Expr} {s t : Stmt}
    {d : Bool} (hkeyword : keyword.kind = .keyword .ifWord)
    (hl : l.kind = .punctuator .leftParen) (hc : Tight 0 u c)
    (hr : r.kind = .punctuator .rightParen) (branch : (Phrase.statement false s).IsRead v)
    (hword : word.kind = .keyword .elseWord) (other : (Phrase.statement d t).IsRead w) :
    (Phrase.statement d (.ifElse c s (some t))).IsRead
      (keyword :: l :: u ++ r :: v ++ word :: w) := by
  have shape : keyword :: l :: u ++ r :: v ++ word :: w =
      keyword :: (l :: (u ++ r :: (v ++ word :: w))) := by simp
  rw [shape]
  apply isRead_chosen
  intro depth rest deep noElse
  refine ⟨ifRule (statement depth), ?_, ?_⟩
  · unfold statementRule?
    rw [hkeyword]
  simp only [List.length_append, List.length_cons] at deep
  apply (takes_expect _ (TokenKind.agrees_punctuator.2 hl)).bind
    (v := u ++ r :: (v ++ word :: w))
  intro _ _
  apply (takes_nestedExpression hc (separates_cons _ hr (by decide))).bind
    (v := r :: (v ++ word :: w))
  intro c' hc'
  apply (takes_expect _ (TokenKind.agrees_punctuator.2 hr)).bind (v := v ++ word :: w)
  intro _ _
  -- the branch is closed, so that reading it leaves the `else` where it is
  apply (branch depth (word :: w ++ rest) (by omega) fun no => nomatch no).bind (v := word :: w)
  intro s' hs'
  apply (takes_introducedBy (TokenKind.agrees_keyword.2 hword)
    (other depth rest (by omega) noElse)).bind_last
  intro o ho
  obtain ⟨t', rfl, ht'⟩ := ho
  exact .pure _ (by simp only [Stmt.bare, Stmt.bareElse, hc', hs', ht'])

theorem isRead_whileLoop {keyword l r : Token} {u v : List Token} {c : Expr} {s : Stmt}
    {d : Bool} (hkeyword : keyword.kind = .keyword .whileWord)
    (hl : l.kind = .punctuator .leftParen) (hc : Tight 0 u c)
    (hr : r.kind = .punctuator .rightParen) (body : (Phrase.statement d s).IsRead v) :
    (Phrase.statement d (.whileLoop c s)).IsRead (keyword :: l :: u ++ r :: v) := by
  show Phrase.IsRead _ (keyword :: (l :: (u ++ r :: v)))
  apply isRead_chosen
  intro depth rest deep noElse
  refine ⟨whileRule (statement depth), ?_, ?_⟩
  · unfold statementRule?
    rw [hkeyword]
  simp only [List.length_append, List.length_cons] at deep
  apply (takes_expect _ (TokenKind.agrees_punctuator.2 hl)).bind (v := u ++ r :: v)
  intro _ _
  apply (takes_nestedExpression hc (separates_cons (v ++ rest) hr (by decide))).bind
    (v := r :: v)
  intro c' hc'
  apply (takes_expect (v ++ rest) (TokenKind.agrees_punctuator.2 hr)).bind (v := v)
  intro _ _
  apply (body depth rest (by omega) noElse).bind_last
  intro s' hs'
  exact .pure _ (by simp only [Stmt.bare, hc', hs'])

theorem isRead_forLoop {keyword l semicolon r : Token} {i c n v : List Token} {s : Stmt}
    {d : Bool} {initializer : Option Stmt} {condition increment : Option Expr}
    (hkeyword : keyword.kind = .keyword .forWord) (hl : l.kind = .punctuator .leftParen)
    (hi : ForInitializerText i initializer) (hc : OptionalText c condition)
    (hsemicolon : semicolon.kind = .punctuator .semicolon) (hn : OptionalText n increment)
    (hr : r.kind = .punctuator .rightParen) (body : (Phrase.statement d s).IsRead v) :
    (Phrase.statement d (forTree initializer condition increment s)).IsRead
      (keyword :: l :: i ++ c ++ semicolon :: n ++ r :: v) := by
  have shape : keyword :: l :: i ++ c ++ semicolon :: n ++ r :: v =
      keyword :: (l :: (i ++ (c ++ semicolon :: (n ++ r :: v)))) := by simp
  rw [shape]
  apply isRead_chosen
  intro depth rest deep noElse
  refine ⟨forRule (statement depth), ?_, ?_⟩
  · unfold statementRule?
    rw [hkeyword]
  simp only [List.length_append, List.length_cons] at deep
  apply (takes_expect _ (TokenKind.agrees_punctuator.2 hl)).bind
    (v := i ++ (c ++ semicolon :: (n ++ r :: v)))
  intro _ _
  apply (takes_forInitializer hi).bind
  intro i' hi'
  apply Takes.bind (takes_expressionUnless hsemicolon
    (separates_cons _ hsemicolon (by decide)) rfl hc) (v := semicolon :: (n ++ r :: v))
  intro c' hc'
  apply (takes_expect _ (TokenKind.agrees_punctuator.2 hsemicolon)).bind (v := n ++ r :: v)
  intro _ _
  apply Takes.bind (takes_expressionUnless hr (separates_cons _ hr (by decide)) rfl hn)
    (v := r :: v)
  intro n' hn'
  apply (takes_expect _ (TokenKind.agrees_punctuator.2 hr)).bind (v := v)
  intro _ _
  apply (body depth rest (by omega) noElse).bind_last
  intro s' hs'
  apply Takes.pure
  rw [forLoop_eq, bare_forTree, bare_forTree, hi', hc', hn', hs']

/-! ### Functions, classes and declarations -/

theorem takes_parameters {w params : List Token} {r : Token} (h : ParametersText w params)
    (hr : r.kind = .punctuator .rightParen) (rest : List Token) :
    Takes (itemsBeforeParen parameter) w (r :: rest) fun ps => ps = params := by
  obtain ⟨short, listed⟩ := h
  have items : Takes (itemsBeforeParen parameter) w (r :: rest)
      fun ps => List.Forall₂ (fun a b => b = a) params ps := by
    apply takes_itemsBeforeParen hr _ _ listed short
    · intro u name text
      refine ⟨name, [], text.1, ?_⟩
      rw [text.2]
      decide
    · intro count u name follow below text _
      obtain ⟨rfl, hname⟩ := text
      have plain : parameter count = expect .identifier .parameterName := by
        unfold parameter
        rw [if_neg (by omega)]
      rw [plain]
      exact takes_expect follow (TokenKind.agrees_identifier.2 hname)
  apply items.weaken
  intro ps all
  have same : List.Forall₂ Eq ps params := all.flip
  rwa [List.forall₂_eq_eq_eq] at same

theorem isRead_function {name l r b e : Token} {u w : List Token} {params : List Token}
    {body : List Stmt} (hname : name.kind = .identifier) (hl : l.kind = .punctuator .leftParen)
    (hu : ParametersText u params) (hr : r.kind = .punctuator .rightParen)
    (hb : b.kind = .punctuator .leftBrace) (hbody : (Phrase.declarations body).IsRead w)
    (he : e.kind = .punctuator .rightBrace) :
    (Phrase.function ⟨name, params, body⟩).IsRead (name :: l :: u ++ r :: b :: w ++ [e]) := by
  have shape : name :: l :: u ++ r :: b :: w ++ [e] =
      [name] ++ ([l] ++ (u ++ ([r] ++ ([b] ++ (w ++ [e]))))) := by simp
  rw [shape]
  intro kind depth rest deep
  simp only [List.length_append, List.length_cons] at deep
  apply (takes_expect _ (TokenKind.agrees_identifier.2 hname)).bind
  intro name' hname'
  subst hname'
  apply (takes_expect _ (TokenKind.agrees_punctuator.2 hl)).bind
  intro _ _
  apply Takes.bind (takes_parameters hu hr _)
  intro params' hparams
  subst hparams
  apply (takes_expect _ (TokenKind.agrees_punctuator.2 hr)).bind
  intro _ _
  apply (takes_expect _ (TokenKind.agrees_punctuator.2 hb)).bind
  intro _ _
  apply (takes_blockBody hbody he (by omega) rest).bind_last
  intro body' hbody'
  exact .pure _ (by rw [FunctionDecl.bare, FunctionDecl.bare, hbody'])

theorem takes_superclass {w : List Token} {o : Option Expr} {l : Token}
    (h : SuperclassText w o) (hl : l.kind = .punctuator .leftBrace) (rest : List Token) :
    Takes (introducedBy (.punctuator .less) superclassName) w (l :: rest)
      fun o' => o'.map Expr.bare = o.map Expr.bare := by
  rcases h with ⟨rfl, rfl⟩ | ⟨less, name, node, rfl, hless, hname, rfl⟩
  · have absent : ∀ t, (l :: rest).head? = some t → t.kind.agrees (.punctuator .less) = false := by
      intro t ht
      cases ht
      rw [hl]
      rfl
    apply (takes_introducedBy_none absent).weaken
    intro o ho
    rw [ho]
  · have parent : Takes superclassName [name] (l :: rest)
        fun e => e.bare = (Expr.var node name).bare := by
      apply (takes_expect _ (TokenKind.agrees_identifier.2 hname)).bind_last
      intro name' hname'
      subst hname'
      apply (takes_freshNode _).bind_last
      intro _ _
      exact .pure _ (by simp only [Expr.bare])
    apply (takes_introducedBy (TokenKind.agrees_punctuator.2 hless) parent).weaken
    intro o ho
    obtain ⟨e, rfl, he⟩ := ho
    rw [Option.map_some, Option.map_some, he]

/-- A declaration whose first token chooses its rule. -/
theorem isRead_declared {s : Stmt} {token : Token} {w : List Token}
    (h : ∀ depth rest, w.length ≤ depth →
      ∃ rule, declarationRule? (declaration depth) token = some rule ∧
        Takes rule w rest fun s' => s'.bare = s.bare) :
    (Phrase.declaration false s).IsRead (token :: w) := by
  intro depth rest deep _
  rw [List.length_cons] at deep
  obtain ⟨depth, rfl⟩ : ∃ n, depth = n + 1 := ⟨depth - 1, by omega⟩
  obtain ⟨rule, chosen, taken⟩ := h depth rest (by omega)
  rw [declaration]
  exact takes_recovering (takes_select chosen taken)

theorem isRead_statement {w : List Token} {s : Stmt} {d : Bool}
    (hs : (Phrase.statement d s).Spells w) (h : (Phrase.statement d s).IsRead w) :
    (Phrase.declaration d s).IsRead w := by
  intro depth rest deep noElse
  obtain ⟨t, v, hw, ht⟩ := hs.starts_statement
  obtain ⟨depth, rfl⟩ : ∃ n, depth = n + 1 := by
    rw [hw, List.length_cons] at deep
    exact ⟨depth - 1, by omega⟩
  have read := h (depth + 1) rest deep noElse
  rw [statement] at read
  rw [declaration]
  apply takes_recovering
  apply takes_select_otherwise _ read
  intro t' ht'
  rw [hw] at ht'
  cases ht'
  -- no statement starts like a class, a function or a variable
  unfold declarationRule?
  split
  all_goals first
    | rfl
    | next kind =>
      rw [kind] at ht
      cases ht

theorem isRead_classDecl {keyword name l r : Token} {u w : List Token}
    {superclass : Option Expr} {methods : List FunctionDecl}
    (hkeyword : keyword.kind = .keyword .classWord) (hname : name.kind = .identifier)
    (hu : SuperclassText u superclass) (hl : l.kind = .punctuator .leftBrace)
    (hmethods : (Phrase.functions methods).IsRead w) (hr : r.kind = .punctuator .rightBrace) :
    (Phrase.declaration false (.classDecl name superclass methods)).IsRead
      (keyword :: name :: u ++ l :: w ++ [r]) := by
  have shape : keyword :: name :: u ++ l :: w ++ [r] =
      keyword :: ([name] ++ (u ++ ([l] ++ (w ++ [r])))) := by simp
  rw [shape]
  apply isRead_declared
  intro depth rest deep
  refine ⟨classRule (declaration depth), ?_, ?_⟩
  · unfold declarationRule?
    rw [hkeyword]
  simp only [List.length_append, List.length_cons] at deep
  apply (takes_expect _ (TokenKind.agrees_identifier.2 hname)).bind
  intro name' hname'
  subst hname'
  apply Takes.bind (takes_superclass hu hl _)
  intro superclass' hsuperclass
  apply (takes_expect _ (TokenKind.agrees_punctuator.2 hl)).bind
  intro _ _
  apply (takes_remaining (w ++ [r] ++ rest)).bind_still
  intro bound hbound
  -- the rule allows as many methods as tokens are left
  have enough : w.length ≤ bound := by
    rw [hbound, List.append_assoc, List.length_append]
    exact Nat.le_add_right _ _
  apply (hmethods depth bound ([r] ++ rest) (by omega) enough (ends_atBodyEnd hr rest)).bind
  intro methods' hmethods'
  apply (takes_expect _ (TokenKind.agrees_punctuator.2 hr)).bind_last
  intro _ _
  exact .pure _ (by simp only [Stmt.bare, hsuperclass, hmethods'])

/-- Every text is read by the rule for its phrase. -/
theorem Phrase.Spells.isRead {p : Phrase} {w : List Token} (h : p.Spells w) : p.IsRead w := by
  -- on the form of the text: what it starts with chooses the rule for this form
  induction h with
  | expression text => exact isRead_expression text
  | print hkeyword he hsemicolon =>
    apply isRead_chosen
    intro depth rest _ _
    exact ⟨_, by unfold statementRule?; rw [hkeyword], takes_printRule he hsemicolon⟩
  | ret hkeyword hvalue hsemicolon =>
    apply isRead_chosen
    intro depth rest _ _
    exact ⟨_, by unfold statementRule?; rw [hkeyword], takes_returnRule hvalue hsemicolon⟩
  | @block l r w ss hl _ hr ih =>
    show Phrase.IsRead _ (l :: (w ++ [r]))
    apply isRead_chosen
    intro depth rest deep _
    rw [List.length_append] at deep
    refine ⟨_, by unfold statementRule?; rw [hl], ?_⟩
    apply (takes_blockBody ih hr (by omega) rest).map
    intro ss' hss'
    rw [Stmt.bare, Stmt.bare, hss']
  | ifThen hkeyword hl hc hr _ ih => exact isRead_ifThen hkeyword hl hc hr ih
  | ifElse hkeyword hl hc hr _ hword _ ihs iht =>
    exact isRead_ifElse hkeyword hl hc hr ihs hword iht
  | whileLoop hkeyword hl hc hr _ ih => exact isRead_whileLoop hkeyword hl hc hr ih
  | forLoop hkeyword hl hi hc hsemicolon hn hr _ ih =>
    exact isRead_forLoop hkeyword hl hi hc hsemicolon hn hr ih
  | statement hs ih => exact isRead_statement hs ih
  | varDecl text =>
    have whole := text
    obtain ⟨keyword, name, v, semicolon, initializer, rfl, hkeyword, _⟩ := text
    show Phrase.IsRead _ (keyword :: (name :: (v ++ [semicolon])))
    apply isRead_declared
    intro depth rest _
    exact ⟨varRule, by unfold declarationRule?; rw [hkeyword], takes_varRule whole⟩
  | funDecl hkeyword _ ih =>
    apply isRead_declared
    intro depth rest deep
    refine ⟨_, by unfold declarationRule?; rw [hkeyword], ?_⟩
    apply (ih .function depth rest deep).map
    intro f hf
    rw [Stmt.bare, Stmt.bare, hf]
  | classDecl hkeyword hname hu hl _ hr ih =>
    exact isRead_classDecl hkeyword hname hu hl ih hr
  | noDeclarations =>
    intro depth stop bound rest _ _ ends
    apply (takes_itemsUntil_nil ends.found bound).weaken
    intro os none
    rw [none]
    rfl
  | declarations hs hss ih ihs => exact isRead_declarations hs hss ih ihs
  | function hname hl hu hr hb _ he ih => exact isRead_function hname hl hu hr hb ih he
  | noFunctions =>
    intro depth bound rest _ _ ends
    apply (takes_itemsUntil_nil ends.found bound).weaken
    intro fs none
    rw [none]
  | functions hf _ ih ihs => exact isRead_functions hf ih ihs

/-! ### Programs -/

theorem derives_declaration_ne_nil {w : List Token} (h : Derives .declaration w) : w ≠ [] := by
  obtain ⟨d, s, hs⟩ := phraseText_of_derives h
  obtain ⟨t, v, hw, _⟩ := hs.starts_declaration
  rw [hw]
  exact List.cons_ne_nil t v

/-- Items that take at least one token each are read up to the end, if the bound allows one
    item for every token. -/
theorem itemsUntil_atEnd_takes_all {α : Type} {item : Parser α} {P : List Token → Prop}
    (reads : Reads item fun w _ => P w) (nonempty : ∀ w, P w → w ≠ []) :
    ∀ (bound : Nat) {s s' : State} {as : List α}, itemsUntil atEnd item bound s = .ok as s' →
      s'.recorded = s.recorded → s.rest.length ≤ bound → s'.rest = [] := by
  intro bound
  induction bound with
  | zero =>
    intro s s' as run _ short
    cases run
    exact List.length_eq_zero_iff.1 (Nat.le_zero.1 short)
  | succ bound ih =>
    intro s s' as run quiet short
    have test : atEnd s = .ok s.rest.isEmpty s := rfl
    rw [itemsUntil, bind_of_ok test] at run
    by_cases atTheEnd : s.rest.isEmpty = true
    · rw [if_pos atTheEnd] at run
      cases run
      exact List.isEmpty_iff.1 atTheEnd
    · rw [if_neg atTheEnd] at run
      obtain ⟨a, s₁, run₁, later⟩ := bind_eq_ok run
      obtain ⟨as', s₂, run₂, final⟩ := bind_eq_ok later
      cases final
      -- nothing new at the end, so nothing new in between
      have before := reads.keeps_ok run₁
      have after := (reads_itemsUntil reads_atEnd reads bound).keeps_ok run₂
      have quiet₁ : s₁.recorded = s.recorded :=
        (before.eq_of_length_le (quiet ▸ after).length_le).symm
      obtain ⟨w, split, hw⟩ := reads.takes run₁ quiet₁
      have shorter : s₁.rest.length ≤ bound := by
        have := List.length_pos_of_ne_nil (nonempty w hw)
        rw [split, List.length_append] at short
        omega
      exact ih run₂ (quiet.trans quiet₁.symm) shorter

theorem derives_of_readProgram {fresh : NodeId} {tokens : List Token}
    (h : (readProgram fresh tokens).errors = []) : Derives .program (bodyOf tokens) := by
  unfold readProgram at h
  cases run : program (start fresh tokens) with
  | error e s =>
    rw [run] at h
    exact absurd h (by simp)
  | ok statements s =>
    rw [run] at h
    have quiet : s.recorded = (start fresh tokens).recorded := h
    obtain ⟨os, s', items, final⟩ := bind_eq_ok (p := itemsUntil atEnd
      (declaration (bodyOf tokens).length) (bodyOf tokens).length) run
    cases final
    -- nothing is left: a bound that runs out has taken as many tokens as there are
    have reads := (reads_statement_declaration (bodyOf tokens).length).2
    have all := itemsUntil_atEnd_takes_all reads (fun w => derives_declaration_ne_nil) _ items
      quiet (Nat.le_refl _)
    obtain ⟨w, split, ws, rfl, derived⟩ := (reads_itemsUntil reads_atEnd reads _).takes items quiet
    rw [all, List.append_nil] at split
    have whole : bodyOf tokens = ws.flatten := split
    rw [whole, derives_iff]
    exact ⟨ws, rfl, derived⟩

theorem readProgram_of_spells (fresh : NodeId) {tokens : List Token} {tree : List Stmt}
    (h : (Phrase.declarations tree).Spells (bodyOf tokens)) :
    (readProgram fresh tokens).errors = [] ∧
      Stmt.bareAll (readProgram fresh tokens).value = Stmt.bareAll tree := by
  have read := h.isRead (bodyOf tokens).length atEnd (bodyOf tokens).length [] (Nat.le_refl _)
    (Nat.le_refl _) ends_atEnd
  obtain ⟨os, fresh', items, hos⟩ := read [] fresh
  rw [List.append_nil] at items
  have run : program (start fresh tokens) = .ok (os.filterMap id) ⟨[], [], fresh'⟩ := by
    show (itemsUntil atEnd _ _ >>= fun statements => pure (statements.filterMap id)) _ = _
    rw [start]
    exact bind_of_ok items
  unfold readProgram
  rw [run]
  exact ⟨rfl, hos⟩

/-- A program is read without errors exactly if the grammar derives its tokens. The tree is
    then one that the tokens are the text of, up to the identities of nodes, and there is no
    other. -/
theorem readProgram_accepts_grammar (fresh : NodeId) (tokens : List Token) :
    ((readProgram fresh tokens).errors = [] ↔ Derives .program (bodyOf tokens)) ∧
    ((readProgram fresh tokens).errors = [] →
      ∃ tree, (Phrase.declarations tree).Spells (bodyOf tokens) ∧
        Stmt.bareAll (readProgram fresh tokens).value = Stmt.bareAll tree) ∧
    (∀ tree, (Phrase.declarations tree).Spells (bodyOf tokens) →
      (readProgram fresh tokens).errors = [] ∧
        Stmt.bareAll (readProgram fresh tokens).value = Stmt.bareAll tree) := by
  have text : Derives .program (bodyOf tokens) →
      ∃ tree, (Phrase.declarations tree).Spells (bodyOf tokens) := phraseText_of_derives
  refine ⟨⟨derives_of_readProgram, ?_⟩, ?_, ?_⟩
  · intro derived
    obtain ⟨tree, spells⟩ := text derived
    exact (readProgram_of_spells fresh spells).1
  · intro quiet
    obtain ⟨tree, spells⟩ := text (derives_of_readProgram quiet)
    exact ⟨tree, spells, (readProgram_of_spells fresh spells).2⟩
  · intro tree spells
    exact readProgram_of_spells fresh spells

/-- The theorem at `for (;;) if (a) if (b) print a; else return;`, where the `else` belongs
    to the second `if`. -/
theorem readProgram_accepts_grammar_nested_if :
    let word := fun k : Keyword => (⟨.keyword k, k.spelling, 1⟩ : Token)
    let sign := fun p : Punctuator => (⟨.punctuator p, p.spelling, 1⟩ : Token)
    let a : Token := ⟨.identifier, "a", 1⟩
    let text := [word .forWord, sign .leftParen, sign .semicolon, sign .semicolon,
      sign .rightParen, word .ifWord, sign .leftParen, a, sign .rightParen, word .ifWord,
      sign .leftParen, a, sign .rightParen, word .printWord, a, sign .semicolon,
      word .elseWord, word .returnWord, sign .semicolon]
    let tree := Stmt.whileLoop (.literal (.bool true)) (.ifElse (.var 0 a)
      (.ifElse (.var 0 a) (.print (word .printWord) (.var 0 a))
        (some (.ret (word .returnWord) none))) none)
    (Phrase.declarations [tree]).Spells (bodyOf (text ++ [.ending 1])) ∧
      (readProgram 0 (text ++ [.ending 1])).errors = [] ∧
      Stmt.bareAll (readProgram 0 (text ++ [.ending 1])).value = Stmt.bareAll [tree] := by
  intro word sign a text tree
  have name : Tight 0 [a] (.var 0 a) := (tight_var 0 rfl).mono (Nat.zero_le 9)
  have print : (Phrase.statement false (.print (word .printWord) (.var 0 a))).Spells
      [word .printWord, a, sign .semicolon] := .print rfl name rfl
  have leave : (Phrase.statement false (.ret (word .returnWord) none)).Spells
      [word .returnWord, sign .semicolon] := .ret (w := []) rfl (.inl ⟨rfl, rfl⟩) rfl
  have inner : (Phrase.statement false (.ifElse (.var 0 a)
      (.print (word .printWord) (.var 0 a)) (some (.ret (word .returnWord) none)))).Spells
      [word .ifWord, sign .leftParen, a, sign .rightParen, word .printWord, a,
        sign .semicolon, word .elseWord, word .returnWord, sign .semicolon] :=
    .ifElse (u := [a]) rfl rfl name rfl print rfl leave
  have outer : (Phrase.statement true (.ifElse (.var 0 a) (.ifElse (.var 0 a)
      (.print (word .printWord) (.var 0 a)) (some (.ret (word .returnWord) none))) none)).Spells
      [word .ifWord, sign .leftParen, a, sign .rightParen, word .ifWord, sign .leftParen, a,
        sign .rightParen, word .printWord, a, sign .semicolon, word .elseWord,
        word .returnWord, sign .semicolon] :=
    .ifThen (u := [a]) rfl rfl name rfl inner
  have loop : (Phrase.statement true tree).Spells text :=
    .forLoop (i := [sign .semicolon]) (c := []) (n := []) rfl rfl
      (.inl ⟨sign .semicolon, rfl, rfl, rfl⟩) (.inl ⟨rfl, rfl⟩) rfl (.inl ⟨rfl, rfl⟩) rfl outer
  have spells : (Phrase.declarations [tree]).Spells (bodyOf (text ++ [.ending 1])) :=
    .declarations (.statement loop) .noDeclarations
  exact ⟨spells, (readProgram_accepts_grammar 0 _).2.2 [tree] spells⟩

end Lox.Grammar
