import Mathlib
import Lox.Proofs.Grammar.Lines
import Lox.Proofs.Lexical.LineNumbers

/-! # Two texts with a newline between them

  A newline ends whatever stands before it, except a string that is open. So a text in which no
  string is left open, a newline and another text are cut into the spans of the one, a blank and
  the spans of the other (`spans_join`): what is scanned in both stands in a row, that of the
  second text on later lines (`scanning_splits_at_newlines`).
-/

namespace Lox.Lexical

open Grammar (bodyOf)

/-! ### Spans before a newline -/

section

variable {after : List Char}

theorem Span.Stands.before_newline {s : Span} (h : s.Stands after)
    (closed : ∀ text, s ≠ .openString text) (b : List Char) :
    s.Stands (after ++ '\n' :: b) := by
  cases s with
  | blank c => exact h
  | comment text =>
    obtain ⟨body, rfl, sameLine, ends⟩ := h
    refine ⟨body, rfl, sameLine, ?_⟩
    intro d head
    cases after with
    | nil => exact (Option.some.inj head).symm
    | cons c after => exact ends d head
  | lexeme kind text => exact stands_before_blank h (by decide) b
  | stray c => exact h
  | openString text => exact absurd rfl (closed text)

theorem AllStand.join {ss ss' : List Span} (h : AllStand ss)
    (closed : ∀ text, .openString text ∉ ss) (h' : AllStand ss') :
    AllStand (ss ++ .blank '\n' :: ss') := by
  induction ss with
  | nil => exact ⟨rfl, h'⟩
  | cons s ss ih =>
    obtain ⟨first, later⟩ := h
    refine ⟨?_, ih later fun text mem => closed text (List.mem_cons_of_mem s mem)⟩
    show s.Stands ((ss ++ .blank '\n' :: ss').flatMap Span.text)
    rw [List.flatMap_append, List.flatMap_cons]
    exact first.before_newline (fun text same => closed text (same ▸ List.mem_cons_self ..)) _

/-- A text without an open string, a newline and another text are cut one by one. -/
theorem spans_join {a : List Char} (closed : ∀ text, .openString text ∉ spans a) (b : List Char) :
    spans (a ++ '\n' :: b) = spans a ++ .blank '\n' :: spans b := by
  have unique := spans_unique _ ((spans_stand a).join closed (spans_stand b))
  rw [List.flatMap_append, List.flatMap_cons, spans_text, spans_text] at unique
  exact unique.symm

end

/-! ### Tokens and errors of spans -/

/-- Whether a span is no error. -/
def Span.isClean : Span → Bool
  | stray _ => false
  | openString _ => false
  | _ => true

section

variable {s : Span} {ss ss' : List Span} {line : Nat}

theorem errorsOf_eq_nil_iff :
    errorsOf (itemsFrom line ss) = [] ↔ ∀ s ∈ ss, s.isClean = true := by
  induction ss generalizing line with
  | nil => exact iff_of_true rfl nofun
  | cons s ss ih =>
    rw [List.forall_mem_cons, ← @ih (line + s.newlines)]
    cases s with
    | blank c => exact (and_iff_right rfl).symm
    | comment text => exact (and_iff_right rfl).symm
    | lexeme kind text => exact (and_iff_right rfl).symm
    | stray c => exact iff_of_false nofun fun h => nomatch h.1
    | openString text => exact iff_of_false nofun fun h => nomatch h.1

/-- An item on another line. -/
def Item.reline (g : Nat → Nat) : Item → Item
  | token t => token (t.reline g)
  | fault e => fault ⟨e.cause, g e.line⟩

theorem item?_add (k : Nat) : (s.item? (line + k)) = (s.item? line).map (Item.reline (· + k)) := by
  cases s <;> rfl

/-- The items of spans that start on a later line. -/
theorem itemsFrom_add (k : Nat) :
    itemsFrom (line + k) ss = (itemsFrom line ss).map (Item.reline (· + k)) := by
  induction ss generalizing line with
  | nil => rfl
  | cons s ss ih =>
    rw [itemsFrom_cons, itemsFrom_cons, List.map_append, Nat.add_right_comm, item?_add, ih]
    cases s.item? (line + s.newlines) <;> rfl

end

/-! ### Tokens of items -/

theorem tokensOf_reline (g : Nat → Nat) (is : List Item) :
    tokensOf (is.map (Item.reline g)) = (tokensOf is).map (Token.reline g) := by
  unfold tokensOf
  rw [List.filterMap_map, List.map_filterMap]
  congr 1
  funext item
  cases item <;> rfl

theorem bodyOf_reline (g : Nat → Nat) (ts : List Token) :
    bodyOf (ts.map (Token.reline g)) = (bodyOf ts).map (Token.reline g) :=
  List.takeWhile_map

/-- All tokens but the last one stand before the end of a text. -/
theorem isEof_of_mem_dropLast (source : String) :
    ∀ t ∈ tokensOf (items source).dropLast, t.isEof = false := by
  obtain ⟨body, line, stream, _, noEnd⟩ :=
    itemsFrom_reports (spans source.toList) (spans_stand _) 1
  intro t mem
  rw [items, stream, List.dropLast_concat] at mem
  obtain ⟨item, mem, found⟩ := List.mem_filterMap.mp mem
  cases item with
  | fault e => cases found
  | token t' =>
    cases found
    have kind := noEnd t mem
    cases same : t.kind with
    | eof => exact absurd same kind
    | _ => rw [Token.isEof, same]; rfl

theorem bodyOf_append_of_dropLast (source : String) (ts : List Token) :
    bodyOf (tokensOf (items source).dropLast ++ ts) =
      tokensOf (items source).dropLast ++ bodyOf ts :=
  List.takeWhile_append_of_pos fun t mem => by simp [isEof_of_mem_dropLast source t mem]

theorem bodyOf_tokens (source : String) :
    bodyOf (tokens source) = tokensOf (items source).dropLast := by
  rw [tokens_eq_append_ending, bodyOf_append_of_dropLast]
  exact List.append_nil _

/-! ### Two texts -/

variable {a b : String}

/-- The number of lines by which a text is moved down if another one stands before it. -/
def linesBefore (a : String) : Nat :=
  a.toList.count '\n' + 1

/-- No string of a text is left open. -/
def Closed (a : String) : Prop :=
  ∀ e ∈ errors a, e.cause ≠ .unterminatedString

theorem closed_of_clean (clean : errors a = []) : Closed a := by
  rw [Closed, clean]
  exact nofun

theorem Closed.no_openString (closed : Closed a) (text : List Char) :
    .openString text ∉ spans a.toList := by
  intro mem
  obtain ⟨before, after, split⟩ := List.append_of_mem mem
  -- an open string is reported
  have reported : .unterminatedString ∈ (errors a).map (·.cause) := by
    rw [errors, items, split, itemsFrom_append, itemsFrom_cons, errorsOf, List.filterMap_append,
      List.filterMap_append, List.map_append, List.map_append]
    exact List.mem_append_right _ (List.mem_append_left _ (List.mem_singleton_self _))
  obtain ⟨e, he, cause⟩ := List.mem_map.mp reported
  exact closed e he cause

theorem Closed.spans_join (closed : Closed a) (b : String) :
    spans (a ++ "\n" ++ b).toList = spans a.toList ++ .blank '\n' :: spans b.toList := by
  rw [← Lexical.spans_join closed.no_openString]
  simp

/-- The items of the one text are followed by those of the other, further down. -/
theorem Closed.items_join (closed : Closed a) (b : String) : items (a ++ "\n" ++ b) =
    (items a).dropLast ++ (items b).map (Item.reline (· + linesBefore a)) := by
  rw [items, closed.spans_join, itemsFrom_append, spans_text, itemsFrom_cons]
  show _ ++ itemsFrom (1 + a.toList.count '\n' + 1) (spans b.toList) = _
  rw [Nat.add_assoc, itemsFrom_add]
  rfl

theorem errors_join (clean : errors a = []) (clean' : errors b = []) :
    errors (a ++ "\n" ++ b) = [] := by
  have joined := (closed_of_clean clean).spans_join b
  unfold errors items at *
  rw [joined, errorsOf_eq_nil_iff, List.forall_mem_append, List.forall_mem_cons]
  exact ⟨errorsOf_eq_nil_iff.mp clean, rfl, errorsOf_eq_nil_iff.mp clean'⟩

/-- The tokens of the one text are followed by those of the other, further down. -/
theorem bodyOf_tokens_join (clean : errors a = []) (b : String) :
    bodyOf (tokens (a ++ "\n" ++ b)) =
      bodyOf (tokens a) ++ (bodyOf (tokens b)).map (Token.reline (· + linesBefore a)) := by
  rw [tokens, (closed_of_clean clean).items_join, tokensOf, List.filterMap_append]
  show bodyOf (tokensOf (items a).dropLast ++ tokensOf ((items b).map _)) = _
  rw [bodyOf_append_of_dropLast, tokensOf_reline, bodyOf_reline, bodyOf_tokens]
  rfl

/-- If no string of a text is left open, then what is scanned in it, a newline and another text
    is what is scanned in the one, but for its end, and then what is scanned in the other, as
    many lines further down as the one has lines. -/
theorem scanning_splits_at_newlines (closed : Closed a) (b : String) :
    ∃ body last, items a = body ++ [.token (.ending last)] ∧
      items (a ++ "\n" ++ b) = body ++ (items b).map (Item.reline (· + linesBefore a)) := by
  exact ⟨_, _, items_eq_append_ending a, closed.items_join b⟩

/-- The theorem at two texts that would make a keyword without the newline, and the second of
    which leaves a string open. -/
theorem scanning_splits_at_newlines_in_keyword :
    let a := "\"x\n\" @ cla"
    let b := "ss \"y"
    linesBefore a = 2 ∧ Closed a ∧ ∃ body last, items a = body ++ [.token (.ending last)] ∧
      items (a ++ "\n" ++ b) = body ++ (items b).map (Item.reline (· + linesBefore a)) := by
  intro a b
  have only : errors a = [⟨.unexpectedCharacter '@', 2⟩] := by cbv
  have closed : Closed a := by
    rw [Closed, only]
    simp
  exact ⟨by decide, closed, scanning_splits_at_newlines closed b⟩

/-! ### Newlines in front of a text -/

/-- A text on later lines. -/
def lowered (k : Nat) (b : String) : String :=
  String.ofList (List.replicate k '\n' ++ b.toList)

theorem lowered_zero (b : String) : lowered 0 b = b :=
  String.ofList_toList

theorem spans_replicate (k : Nat) (text : List Char) :
    spans (List.replicate k '\n' ++ text) = List.replicate k (.blank '\n') ++ spans text := by
  induction k with
  | zero => rfl
  | succ k ih =>
    rw [List.replicate_succ, List.cons_append, spans]
    exact congrArg (Span.blank '\n' :: ·) ih

theorem itemsFrom_replicate (k line : Nat) (ss : List Span) :
    itemsFrom line (List.replicate k (.blank '\n') ++ ss) = itemsFrom (line + k) ss := by
  induction k generalizing line with
  | zero => rfl
  | succ k ih =>
    have later := ih (line + 1)
    rw [Nat.add_right_comm] at later
    exact later

theorem items_lowered (k : Nat) (b : String) :
    items (lowered k b) = (items b).map (Item.reline (· + k)) := by
  rw [items, items, lowered, String.toList_ofList, spans_replicate, itemsFrom_replicate,
    itemsFrom_add]

theorem tokens_lowered (k : Nat) (b : String) :
    tokens (lowered k b) = (tokens b).map (Token.reline (· + k)) := by
  rw [tokens, items_lowered, tokensOf_reline]
  rfl

theorem errors_lowered (k : Nat) (clean : errors b = []) : errors (lowered k b) = [] := by
  rw [errors, errorsOf, List.filterMap_eq_nil_iff] at clean ⊢
  intro item mem
  rw [items_lowered] at mem
  obtain ⟨item', mem', rfl⟩ := List.mem_map.mp mem
  have none := clean item' mem'
  cases item' with
  | token t => rfl
  | fault e => cases none

/-- The tokens of a text stand on its lines. -/
theorem line_of_token {t : Token} (mem : t ∈ tokens a) : 1 ≤ t.line ∧ t.line ≤ linesBefore a := by
  obtain ⟨item, mem, found⟩ := List.mem_filterMap.mp mem
  obtain ⟨position, stands⟩ := List.mem_iff_getElem?.mp mem
  obtain ⟨upTo, read, line⟩ := itemsFrom_readUpTo stands
  have within : upTo.count '\n' ≤ a.toList.count '\n' := by
    have part := read.isPrefix
    rw [spans_text] at part
    exact part.sublist.count_le _
  cases item with
  | fault e => cases found
  | token t' =>
    cases found
    have same : t.line = 1 + upTo.count '\n' := line
    unfold linesBefore
    omega

end Lox.Lexical
