import Lox.Proofs.Grammar.ProgramTexts

/-! # `for` loops in a text

  What a parser takes from a text is determined by the text. So two `for` loops that start at
  one token of a text have the same head and the same increment, and if one of them is the loop
  that is read there, the body of the other one is the first part of its body, or all of it
  (`LoopParts.same`). It may be a part only, as in `for (;;) if (a) b; else c;`.
-/

namespace Lox.Grammar

/-- The parts of a `for` loop: what stands before the increment, the increment, the parenthesis
    after it and the body, with the mark whether an `else` after it would belong to it. -/
structure LoopParts (dangling : Bool) (head increment paren body : List Token) : Prop where
  head : ∃ keyword l semicolon i c initializer condition,
    head = keyword :: l :: i ++ c ++ [semicolon] ∧ keyword.kind = .keyword .forWord ∧
      l.kind = .punctuator .leftParen ∧ ForInitializerText i initializer ∧
      OptionalText c condition ∧ semicolon.kind = .punctuator .semicolon
  increment : ∃ e, OptionalText increment e
  paren : ∃ r, paren = [r] ∧ r.kind = .punctuator .rightParen
  body : ∃ s, (Phrase.statement dangling s).Spells body

section

variable {α : Type} {p : Parser α} {w w' rest rest' : List Token} {P Q : α → Prop}

theorem Takes.same (h : Takes p w rest P) (h' : Takes p w' rest' Q)
    (same : w ++ rest = w' ++ rest') : w = w' ∧ rest = rest' := by
  obtain ⟨a, fresh, run, _⟩ := h [] 0
  obtain ⟨a', fresh', run', _⟩ := h' [] 0
  rw [same, run'] at run
  cases run
  exact ⟨List.append_cancel_right same, rfl⟩

/-- Optional expressions that end at tokens of one kind, such as a semicolon. -/
theorem optionalText_same {o o' : Option Expr} {t t' : Token} {kind : TokenKind}
    (starts : startsExpression kind = false)
    (stops : kind ≠ .punctuator .leftParen ∧ kind ≠ .punctuator .dot ∧
      kind ≠ .punctuator .equal ∧ precedence? kind = none)
    (h : OptionalText w o) (ht : t.kind = kind) (h' : OptionalText w' o') (ht' : t'.kind = kind)
    (same : w ++ t :: rest = w' ++ t' :: rest') : w = w' ∧ t = t' ∧ rest = rest' := by
  have first := takes_expressionUnless ht (separates_cons rest ht stops) starts h
  have second := takes_expressionUnless ht' (separates_cons rest' ht' stops) starts h'
  obtain ⟨texts, after⟩ := first.same second same
  exact ⟨texts, List.cons.inj after⟩

end

section

variable {d d' : Bool} {head head' increment increment' paren paren' body body' rest rest' :
  List Token}

/-- One of two statements that a text starts with is a part of the other one. -/
theorem body_isPrefix {s s' : Stmt} (h : (Phrase.statement d s).Spells body)
    (h' : (Phrase.statement d' s').Spells body') (far : d' = true → NoElse rest')
    (same : body ++ rest = body' ++ rest') : body <+: body' := by
  rcases List.append_eq_append_iff.mp same with ⟨more, longer, _⟩ | ⟨more, shorter, after⟩
  · exact ⟨more, longer.symm⟩
  · -- both are read from the longer text alone, so that nothing is left of it
    cases more with
    | nil => exact ⟨[], shorter.symm ▸ by simp⟩
    | cons t more =>
      have apart : d' = true → NoElse (t :: more) := by
        intro open' t' first
        refine far open' t' ?_
        rw [after]
        exact first
      have whole := h.isRead (body.length + body'.length) [] (Nat.le_add_right ..)
        fun _ _ none => nomatch none
      have part := h'.isRead (body.length + body'.length) (t :: more) (Nat.le_add_left ..) apart
      have none := (whole.same part ((List.append_nil body).trans shorter)).2
      cases none

theorem LoopParts.same (h : LoopParts d head increment paren body)
    (h' : LoopParts d' head' increment' paren' body') (far : d' = true → NoElse rest')
    (same : head ++ (increment ++ (paren ++ (body ++ rest))) =
      head' ++ (increment' ++ (paren' ++ (body' ++ rest')))) :
    head = head' ∧ increment = increment' ∧ paren = paren' ∧ body <+: body' := by
  obtain ⟨keyword, l, semicolon, i, c, _, _, rfl, _, _, hi, hc, hsemicolon⟩ := h.head
  obtain ⟨keyword', l', semicolon', i', c', _, _, rfl, _, _, hi', hc', hsemicolon'⟩ := h'.head
  obtain ⟨e, he⟩ := h.increment
  obtain ⟨e', he'⟩ := h'.increment
  obtain ⟨r, rfl, hr⟩ := h.paren
  obtain ⟨r', rfl, hr'⟩ := h'.paren
  obtain ⟨s, hs⟩ := h.body
  obtain ⟨s', hs'⟩ := h'.body
  simp only [List.cons_append, List.append_assoc, List.nil_append, List.cons.injEq] at same
  obtain ⟨rfl, rfl, initializers⟩ := same
  -- the parts are read one after another
  obtain ⟨rfl, conditions⟩ :=
    (takes_forInitializer hi).same (takes_forInitializer hi') initializers
  obtain ⟨rfl, rfl, increments⟩ := optionalText_same rfl (by decide) hc hsemicolon hc' hsemicolon'
    conditions
  obtain ⟨rfl, rfl, bodies⟩ := optionalText_same rfl (by decide) he hr he' hr' increments
  exact ⟨rfl, rfl, rfl, body_isPrefix hs hs' far bodies⟩

end

end Lox.Grammar
