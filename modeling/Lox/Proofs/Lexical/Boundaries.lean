import Lox.Proofs.Lexical.LongestMatch

/-! # Blanks are boundaries

  No lexeme has a blank in it, except a string (`quote_of_blank`). So what is the longest lexeme
  at the end of a text is so before any blank, too (`Longest.before_blank`), and of all the
  spans of a text only blanks and strings go on to another line (`Span.Stands.many_lines`).
-/

namespace Lox.Lexical

variable {kind : TokenKind} {text after : List Char} {d : Char}

/-! ### Lexemes and blanks -/

theorem not_word_of_blank (blank : isBlank d = true) :
    isNameStart d = false ∧ isDigit d = false := by
  refine ⟨Bool.eq_false_iff.mpr ?_, Bool.eq_false_iff.mpr ?_⟩
  · intro start
    rw [isBlank_of_nameStart start] at blank
    cases blank
  · intro digit
    rw [isBlank_of_digit digit] at blank
    cases blank

theorem blank_not_mem_spelling (blank : isBlank d = true) (p : Punctuator) :
    d ∉ p.spelling.toList := by
  simp only [isBlank, Bool.or_eq_true, beq_iff_eq] at blank
  rcases blank with ((rfl | rfl) | rfl) | rfl <;> cases p <;> decide

/-- Only strings have blanks in them. -/
theorem quote_of_blank {c : Char} {rest : List Char} (h : Lexeme kind (c :: rest))
    (blank : isBlank d = true) (mem : d ∈ c :: rest) : c = '"' := by
  obtain ⟨noStart, noDigit⟩ := not_word_of_blank blank
  have noDigits : ∀ {l : List Char}, (∀ e ∈ l, isDigit e = true) → d ∉ l := by
    intro l all inside
    rw [all d inside] at noDigit
    cases noDigit
  -- in words, numbers and punctuation there is no blank
  rcases h.forms with ⟨start, parts, _⟩ | ⟨_, whole | ⟨_, _, split, all, _, all', _⟩⟩ |
    ⟨quote, _⟩ | ⟨p, _, spelled⟩
  · rcases List.mem_cons.mp mem with rfl | mem
    · rw [start] at noStart
      cases noStart
    · have part := parts d mem
      rw [isNamePart, noStart, noDigit] at part
      cases part
  · exact absurd mem (noDigits whole.1)
  · rw [split] at mem
    rcases List.mem_append.mp mem with mem | mem
    · exact absurd mem (noDigits all)
    · rcases List.mem_cons.mp mem with rfl | mem
      · exact absurd blank (by decide)
      · exact absurd mem (noDigits all')
  · exact quote
  · rw [← spelled] at mem
    exact absurd mem (blank_not_mem_spelling blank p)

/-- Of two texts that start alike, the one without a character that the other goes on with ends
    before it. -/
theorem prefix_before {part b : List Char} (h : part <+: text ++ d :: b) (free : d ∉ part) :
    part <+: text := by
  rcases List.prefix_or_prefix_of_prefix h (List.prefix_append text _) with inside | ⟨more, rfl⟩
  · exact inside
  · cases more with
    | nil => rw [List.append_nil]
    | cons e more =>
      obtain ⟨rfl, _⟩ := List.cons_prefix_cons.mp ((List.prefix_append_right_inj text).mp h)
      exact absurd (List.mem_append_right text (List.mem_cons_self ..)) free

/-! ### The longest lexeme -/

/-- Two strings at the head of one text are the same. -/
theorem longest_of_quote {rest : List Char} (h : Lexeme kind ('"' :: rest)) (after : List Char) :
    Longest kind ('"' :: rest) after := by
  rcases h.forms with ⟨start, _⟩ | ⟨digit, _⟩ | ⟨_, inside, rfl, free, rfl⟩ | ⟨p, _, spelled⟩
  · exact absurd start (by decide)
  · exact absurd digit (by decide)
  · exact longest_string free after
  · exact absurd rfl (punctuator_not_word spelled).2.2.1

/-- What is the longest lexeme at the end of a text is so before a blank. -/
theorem Longest.before_blank (h : Longest kind text after) (blank : isBlank d = true)
    (b : List Char) : Longest kind text (after ++ d :: b) := by
  cases text with
  | nil => exact absurd rfl h.1.ne_nil
  | cons c rest =>
    by_cases quote : c = '"'
    · subst quote
      exact longest_of_quote h.1 _
    · refine ⟨h.1, ?_⟩
      intro kind' text' h' within
      -- a lexeme that went on after the blank would be a string
      have free : d ∉ text' := by
        cases text' with
        | nil => exact List.not_mem_nil
        | cons e rest' =>
          obtain ⟨rfl, _⟩ := List.cons_prefix_cons.mp within
          exact fun mem => quote (quote_of_blank h' blank mem)
      rw [← List.append_assoc] at within
      exact h.2 kind' text' h' (prefix_before within free)

/-- What is the longest lexeme at the head of a text is so if nothing follows it. -/
theorem Longest.alone (h : Longest kind text after) : Longest kind text [] := by
  refine ⟨h.1, ?_⟩
  intro kind' text' h' within
  rw [List.append_nil] at within
  exact h.2 kind' text' h' (within.trans (List.prefix_append text after))

/-! ### Spans -/

theorem stands_before_blank (h : (Span.lexeme kind text).Stands after) (blank : isBlank d = true)
    (b : List Char) : (Span.lexeme kind text).Stands (after ++ d :: b) := by
  refine ⟨h.1.before_blank blank b, ?_⟩
  intro slashes
  rw [← List.append_assoc] at slashes
  have noSlash : d ∉ ['/', '/'] := by
    intro mem
    have same : d = '/' := by simpa using mem
    rw [same] at blank
    cases blank
  exact h.2 (prefix_before slashes noSlash)

theorem stands_alone (h : (Span.lexeme kind text).Stands after) :
    (Span.lexeme kind text).Stands [] := by
  refine ⟨h.1.alone, ?_⟩
  intro slashes
  rw [List.append_nil] at slashes
  exact h.2 (slashes.trans (List.prefix_append text after))

/-- What goes on to another line is the end of a line or a string, closed or not. -/
theorem Span.Stands.many_lines {s : Span} (h : s.Stands after) (mem : '\n' ∈ s.text) :
    s = .blank '\n' ∨ (∃ value text, s = .lexeme (.string value) text) ∨
      ∃ text, s = .openString text := by
  cases s with
  | blank c =>
    rw [List.mem_singleton.mp mem]
    exact .inl rfl
  | comment text =>
    obtain ⟨body, rfl, sameLine, _⟩ := h
    have mem : '\n' ∈ '/' :: '/' :: body := mem
    exact absurd mem (by simpa using sameLine)
  | lexeme kind text =>
    cases text with
    | nil => exact absurd mem List.not_mem_nil
    | cons c rest =>
      -- a newline is a blank, and a lexeme with one is a string
      cases quote_of_blank h.1.1 (by decide) mem
      rcases h.1.1.forms with ⟨start, _⟩ | ⟨digit, _⟩ | ⟨_, inside, _, _, rfl⟩ | ⟨p, _, spelled⟩
      · exact absurd start (by decide)
      · exact absurd digit (by decide)
      · exact .inr (.inl ⟨_, _, rfl⟩)
      · exact absurd rfl (punctuator_not_word spelled).2.2.1
  | stray c =>
    cases List.mem_singleton.mp mem
    exact absurd h.1 (by decide)
  | openString text => exact .inr (.inr ⟨text, rfl⟩)

end Lox.Lexical
