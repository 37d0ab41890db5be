import Lox.Proofs.Lexical.Boundaries

/-! # Lines are counted by newlines

  Each item of a stream reports one span, and the last one the end of the text. `ReadUpTo` says
  how far the text is read by then; the line of the item is one more than the number of newlines
  up to there (`lines_count_newlines`).
-/

namespace Lox.Lexical

/-- How far a text that is cut into spans is read when the item at a position of its stream is
    handed out: to the end of the span that the item reports, or to the end of the text. -/
inductive ReadUpTo (ss : List Span) : Nat → Item → List Char → Prop where
  /-- As many spans are reported before the span as there are items before the item. -/
  | span {before after : List Span} {s : Span} {item : Item} : ss = before ++ s :: after →
      s.Reported item → ReadUpTo ss (before.filter Span.isReported).length item
        (before.flatMap Span.text ++ s.text)
  /-- All spans that are reported have been. -/
  | ending (line : Nat) : ReadUpTo ss (ss.filter Span.isReported).length
      (.token (.ending line)) (ss.flatMap Span.text)

variable {s : Span} {ss ss' : List Span} {item : Item} {line position : Nat} {upTo : List Char}

/-! ### Streams of spans -/

/-- The first span leaves its item, if it is reported; the others follow from where it ends. -/
theorem itemsFrom_cons : itemsFrom line (s :: ss) =
    (s.item? (line + s.newlines)).toList ++ itemsFrom (line + s.newlines) ss := by
  rw [itemsFrom]
  cases s.item? (line + s.newlines) <;> rfl

theorem itemsFrom_ne_nil : itemsFrom line ss ≠ [] := by
  induction ss generalizing line with
  | nil => exact List.cons_ne_nil _ _
  | cons s ss ih =>
    rw [itemsFrom_cons]
    exact List.append_ne_nil_of_right_ne_nil _ ih

/-- The items of spans, and then of those after them. -/
theorem itemsFrom_append : itemsFrom line (ss ++ ss') =
    (itemsFrom line ss).dropLast ++ itemsFrom (line + (ss.flatMap Span.text).count '\n') ss' := by
  induction ss generalizing line with
  | nil => rfl
  | cons s ss ih =>
    rw [List.cons_append, itemsFrom_cons, itemsFrom_cons, ih,
      List.dropLast_append_of_ne_nil itemsFrom_ne_nil, List.append_assoc, List.flatMap_cons,
      List.count_append, ← Nat.add_assoc]
    rfl

/-- The stream of a text ends with the end token, on the line of its end. -/
theorem items_eq_append_ending (source : String) : items source =
    (items source).dropLast ++ [.token (.ending (1 + source.toList.count '\n'))] := by
  have whole : itemsFrom 1 (spans source.toList ++ []) = _ := itemsFrom_append
  rw [List.append_nil, spans_text] at whole
  exact whole

theorem tokens_eq_append_ending (source : String) : tokens source =
    tokensOf (items source).dropLast ++ [.ending (1 + source.toList.count '\n')] := by
  rw [tokens]
  nth_rewrite 1 [items_eq_append_ending]
  rw [tokensOf, List.filterMap_append]
  rfl

theorem AllStand.split {before after : List Span} (stand : AllStand (before ++ s :: after)) :
    s.Stands (after.flatMap Span.text) := by
  induction before with
  | nil => exact stand.1
  | cons _ _ ih => exact ih stand.2

/-! ### How far the text is read -/

theorem isReported_eq (s : Span) (line : Nat) : s.isReported = (s.item? line).isSome := by
  cases s <;> rfl

theorem reported_of_item? (found : s.item? line = some item) : s.Reported item := by
  cases s with
  | lexeme => cases found; exact .token ..
  | stray => cases found; exact .stray ..
  | openString => cases found; exact .openString ..
  | blank => cases found
  | comment => cases found

/-- One more span at the head of a text. -/
theorem ReadUpTo.cons (s : Span) (h : ReadUpTo ss position item upTo) :
    ReadUpTo (s :: ss) (([s].filter Span.isReported).length + position) item (s.text ++ upTo) := by
  cases h with
  | @span before after s' item split reported =>
    have whole : s :: ss = ([s] ++ before) ++ s' :: after := congrArg (s :: ·) split
    have longer := ReadUpTo.span whole reported
    rw [List.flatMap_append, List.flatMap_singleton, List.append_assoc, List.filter_append,
      List.length_append] at longer
    exact longer
  | ending line =>
    have longer : ReadUpTo ([s] ++ ss) _ _ _ := .ending line
    rw [List.flatMap_append, List.flatMap_singleton, List.filter_append,
      List.length_append] at longer
    exact longer

/-- The line on which a span starts and the newlines from there on make the line of an item. -/
theorem itemsFrom_readUpTo (found : (itemsFrom line ss)[position]? = some item) :
    ∃ upTo, ReadUpTo ss position item upTo ∧ item.line = line + upTo.count '\n' := by
  induction ss generalizing line position with
  | nil =>
    rw [itemsFrom, List.getElem?_singleton] at found
    split at found
    · next first =>
      cases found
      exact ⟨[], first ▸ .ending line, rfl⟩
    · cases found
  | cons s ss ih =>
    rw [itemsFrom] at found
    have further : ∀ {position}, (itemsFrom (line + s.newlines) ss)[position]? = some item →
        ∃ upTo, ReadUpTo (s :: ss) (([s].filter Span.isReported).length + position) item upTo ∧
          item.line = line + upTo.count '\n' := by
      intro position found
      obtain ⟨upTo, read, lines⟩ := ih found
      refine ⟨s.text ++ upTo, read.cons s, ?_⟩
      rw [lines, List.count_append, ← Nat.add_assoc]
      rfl
    -- the item is that of the span, or is found among those of the spans after it
    have reports := isReported_eq s (line + s.newlines)
    cases reported : s.item? (line + s.newlines) with
    | none =>
      rw [reported] at found reports
      have more := further found
      simpa [reports] using more
    | some item' =>
      rw [reported] at found reports
      cases position with
      | zero =>
        cases found
        have split : s :: ss = [] ++ s :: ss := rfl
        exact ⟨s.text, .span split (reported_of_item? reported), item?_line reported⟩
      | succ position =>
        have more := further found
        simpa [reports, Nat.add_comm] using more

theorem ReadUpTo.isPrefix (h : ReadUpTo ss position item upTo) :
    upTo <+: ss.flatMap Span.text := by
  cases h with
  | span split =>
    rw [split, List.flatMap_append, List.flatMap_cons, ← List.append_assoc]
    exact List.prefix_append _ _
  | ending => exact List.prefix_refl _

/-- A string that is left open goes on to the end of the text. -/
theorem ReadUpTo.openString (h : ReadUpTo ss position (.fault ⟨.unterminatedString, line⟩) upTo)
    (stand : AllStand ss) : upTo = ss.flatMap Span.text := by
  cases h with
  | @span before after s item split reported =>
    cases reported with
    | openString text =>
      rw [split] at stand ⊢
      obtain ⟨_, _, _, nothing⟩ := stand.split
      rw [List.flatMap_append, List.flatMap_cons, nothing, List.append_nil]

/-- Each item of a text is on the line that is one more than the number of newlines up to the
    end of what it reports; for a string that is left open and for the end token, that is the end
    of the text. So the lines of a stream only go up, and they do so at the ends of lines and
    within strings. -/
theorem lines_count_newlines (source : String) :
    (∀ position item, (items source)[position]? = some item →
      ∃ upTo, ReadUpTo (spans source.toList) position item upTo ∧ upTo <+: source.toList ∧
        item.line = 1 + upTo.count '\n') ∧
    (∀ position line upTo,
      ReadUpTo (spans source.toList) position (.fault ⟨.unterminatedString, line⟩) upTo →
      upTo = source.toList) ∧
    (items source).getLast? = some (.token (.ending (1 + source.toList.count '\n'))) ∧
    (items source).Pairwise (·.line ≤ ·.line) ∧
    ∀ span ∈ spans source.toList, '\n' ∈ span.text →
      span = .blank '\n' ∨ (∃ value text, span = .lexeme (.string value) text) ∨
        ∃ text, span = .openString text := by
  have stand := spans_stand source.toList
  refine ⟨?_, ?_, ?_, (itemsFrom_lines _ 1).2, ?_⟩
  · intro position item found
    obtain ⟨upTo, read, line⟩ := itemsFrom_readUpTo found
    refine ⟨upTo, read, ?_, line⟩
    have within := read.isPrefix
    rw [spans_text] at within
    exact within
  · intro position line upTo read
    rw [read.openString stand, spans_text]
  · rw [items_eq_append_ending, List.getLast?_concat]
  · intro span mem newline
    obtain ⟨before, after, split⟩ := List.append_of_mem mem
    rw [split] at stand
    exact stand.split.many_lines newline

/-- A string over two lines, a comment, a stray character and a string that is left open. -/
example : (items "\"x\ny\" // z\n@\n\"").map Item.line = [2, 3, 4, 4] := by cbv

end Lox.Lexical
