import Lox.Proofs.Lexical.Joining

/-! # Lexemes written out again

  A lexeme that was the longest one in its text is so before a space, whatever stood after it
  there. So the lexemes of a text, written one after the other with a space between any two,
  are cut at the spaces (`spans_spaced`), and scanning them gives the same tokens again
  (`scanning_again_gives_the_same_tokens`).
-/

namespace Lox.Lexical

/-- The lexemes of tokens with a space between any two. -/
def spaced (ts : List Token) : String :=
  " ".intercalate (ts.map (·.lexeme))

/-! ### The lexemes among spans -/

/-- Whether a span is a lexeme. -/
def Span.isLexeme : Span → Bool
  | lexeme _ _ => true
  | _ => false

/-- What a span has in common with its token: the kind, with its literal, and the characters. -/
def Span.word? : Span → Option (TokenKind × String)
  | lexeme kind text => some (kind, String.ofList text)
  | _ => none

/-- The lexemes of a text that was cut into spans, with a space between any two. -/
def spacedSpans (ss : List Span) : List Span :=
  (ss.filter Span.isLexeme).intersperse (.blank ' ')

variable {ss : List Span}

/-- The tokens of spans are those of the lexemes among them, and then the end. -/
theorem tokensOf_itemsFrom_words (line : Nat) (ss : List Span) :
    (tokensOf (itemsFrom line ss)).map (fun t => (t.kind, t.lexeme)) =
      ss.filterMap Span.word? ++ [(.eof, "")] := by
  induction ss generalizing line with
  | nil => rfl
  | cons s ss ih =>
    have later := ih (line + s.newlines)
    cases s with
    | lexeme kind text => exact congrArg (_ :: ·) later
    | blank c => exact later
    | comment text => exact later
    | stray c => exact later
    | openString text => exact later

theorem filterMap_word?_filter (ss : List Span) :
    (ss.filter Span.isLexeme).filterMap Span.word? = ss.filterMap Span.word? := by
  rw [List.filterMap_filter]
  congr 1
  funext s
  cases s <;> rfl

theorem filterMap_word?_intersperse (c : Char) : ∀ ls : List Span,
    (ls.intersperse (.blank c)).filterMap Span.word? = ls.filterMap Span.word?
  | [] => rfl
  | [_] => rfl
  | s :: s' :: rest => by
    have later := filterMap_word?_intersperse c (s' :: rest)
    rw [List.intersperse_cons_cons, List.filterMap_cons, List.filterMap_cons, later,
      List.filterMap_cons (l := s' :: rest)]
    rfl

/-- The characters of lexemes with spaces between them. -/
theorem flatMap_text_intersperse (c : Char) : ∀ ls : List Span,
    (ls.intersperse (.blank c)).flatMap Span.text = [c].intercalate (ls.map Span.text)
  | [] => rfl
  | [_] => by simp
  | s :: s' :: rest => by
    have later := flatMap_text_intersperse c (s' :: rest)
    rw [List.intersperse_cons_cons, List.flatMap_cons, List.flatMap_cons, later]
    simp [Span.text]

/-! ### Cutting at the spaces -/

/-- Lexemes that stand somewhere stand where there are spaces between them. -/
theorem allStand_intersperse : ∀ ls : List Span,
    (∀ s ∈ ls, s.isLexeme = true ∧ ∃ after, s.Stands after) →
    AllStand (ls.intersperse (.blank ' '))
  | [], _ => trivial
  | [s], stand => by
    obtain ⟨isLexeme, after, first⟩ := stand s (List.mem_singleton_self s)
    cases s with
    | lexeme kind text => exact ⟨stands_alone first, trivial⟩
    | _ => cases isLexeme
  | s :: s' :: rest, stand => by
    obtain ⟨⟨isLexeme, after, first⟩, others⟩ := List.forall_mem_cons.mp stand
    have later := allStand_intersperse (s' :: rest) others
    cases s with
    | lexeme kind text =>
      exact ⟨stands_before_blank (stands_alone first) (by decide) _, rfl, later⟩
    | _ => cases isLexeme

theorem allStand_spacedSpans (stand : AllStand ss) : AllStand (spacedSpans ss) := by
  apply allStand_intersperse
  intro s hs
  obtain ⟨mem, isLexeme⟩ := List.mem_filter.mp hs
  obtain ⟨before, after, rfl⟩ := List.append_of_mem mem
  exact ⟨isLexeme, _, stand.split⟩

theorem lexemes_of_words (ss : List Span) : (ss.filterMap Span.word?).map Prod.snd =
    (ss.filter Span.isLexeme).map fun s => String.ofList s.text := by
  induction ss with
  | nil => rfl
  | cons s ss ih =>
    cases s with
    | lexeme kind text => exact congrArg (_ :: ·) ih
    | blank c => exact ih
    | comment text => exact ih
    | stray c => exact ih
    | openString text => exact ih

theorem lexemes_dropLast (source : String) : (tokens source).dropLast.map (·.lexeme) =
    ((spans source.toList).filter Span.isLexeme).map fun s => String.ofList s.text := by
  have words := congrArg List.dropLast (tokensOf_itemsFrom_words 1 (spans source.toList))
  rw [List.dropLast_concat, ← List.map_dropLast] at words
  rw [← lexemes_of_words, ← words, List.map_map]
  rfl

/-- What is written is cut into the lexemes and the spaces between them. -/
theorem spans_spaced (source : String) :
    spans (spaced (tokens source).dropLast).toList = spacedSpans (spans source.toList) := by
  have text : (spaced (tokens source).dropLast).toList =
      (spacedSpans (spans source.toList)).flatMap Span.text := by
    rw [spaced, String.toList_intercalate, lexemes_dropLast, spacedSpans, flatMap_text_intersperse]
    simp [Function.comp_def]
  rw [text]
  -- a text is cut in one way only
  exact (spans_unique _ (allStand_spacedSpans (spans_stand _))).symm

theorem clean_intersperse (c : Char) : ∀ ls : List Span, (∀ s ∈ ls, s.isClean = true) →
    ∀ s ∈ ls.intersperse (.blank c), s.isClean = true
  | [], clean => clean
  | [_], clean => clean
  | s :: s' :: rest, clean => by
    obtain ⟨first, others⟩ := List.forall_mem_cons.mp clean
    have later := clean_intersperse c (s' :: rest) others
    rw [List.intersperse_cons_cons]
    exact List.forall_mem_cons.mpr ⟨first, List.forall_mem_cons.mpr ⟨rfl, later⟩⟩

theorem isClean_of_isLexeme {s : Span} (h : s.isLexeme = true) : s.isClean = true := by
  cases s with
  | lexeme => rfl
  | _ => cases h

/-- Of each text, the tokens before its end are written with a space between any two lexemes,
    whatever else stood in it. Scanned again, this gives no error and tokens of the same kinds,
    with the same literals and the same lexemes, in the same order, and then the end. -/
theorem scanning_again_gives_the_same_tokens (source : String) :
    (∃ line, tokens source = (tokens source).dropLast ++ [.ending line]) ∧
    errors (spaced (tokens source).dropLast) = [] ∧
    (tokens (spaced (tokens source).dropLast)).map (fun t => (t.kind, t.lexeme)) =
      (tokens source).map (fun t => (t.kind, t.lexeme)) := by
  refine ⟨?_, ?_, ?_⟩
  · refine ⟨1 + source.toList.count '\n', ?_⟩
    rw [tokens_eq_append_ending, List.dropLast_concat]
  · rw [errors, items, spans_spaced, errorsOf_eq_nil_iff]
    apply clean_intersperse
    intro s mem
    exact isClean_of_isLexeme (List.mem_filter.mp mem).2
  · calc (tokens (spaced (tokens source).dropLast)).map (fun t => (t.kind, t.lexeme))
      _ = (spacedSpans (spans source.toList)).filterMap Span.word? ++ [(.eof, "")] := by
        rw [tokens, items, spans_spaced, tokensOf_itemsFrom_words]
      _ = (spans source.toList).filterMap Span.word? ++ [(.eof, "")] := by
        rw [spacedSpans, filterMap_word?_intersperse, filterMap_word?_filter]
      _ = (tokens source).map (fun t => (t.kind, t.lexeme)) := by
        rw [tokens, items, tokensOf_itemsFrom_words]

/-- Two slashes that stood on two lines do not become a comment. -/
example : spaced (tokens "a/ // b\n/\"\n\"=@=").dropLast = "a / / \"\n\" = =" := by cbv

end Lox.Lexical
