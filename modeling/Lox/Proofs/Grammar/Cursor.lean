import Mathlib.Data.List.TakeWhile
import Mathlib.Order.Bounds.Basic
import Lox.Grammar.TokenCursor
import Lox.Proofs.Grammar.ProgramReading
import Lox.Proofs.Grammar.Progress

/-! # The cursor

  The tokens that a parser still has before it stand for a position among all tokens up to
  the first end token (`CursorAt`). What it does with them is what a cursor does that moves
  over all tokens and stays at the first end token (`CursorReads`). In these terms: reading a
  program gets to the end token and never past it; every declaration takes a token; and one
  that fails leaves the cursor at the next place where a statement may begin.

  Nesting and repetitions are bounded by the number of tokens left, so that reading ends by
  its form alone. `NoBoundFelt` says that this is not why it ends: the readers satisfy the
  equations of the grammar in which there are no bounds, and a repetition with a larger
  bound comes to the same.
-/

namespace Lox.Grammar

variable {α : Type} {tokens : List Token} {s s' : State} {p : Nat}

/-! ### Positions -/

/-- The tokens up to the first end token, one being added if there is none. -/
def upToEnd (tokens : List Token) : List Token :=
  bodyOf tokens ++ [endingOf tokens]

/-- Whether there is an end token at a position. -/
def EndAt (tokens : List Token) (p : Nat) : Prop :=
  ∃ t, (upToEnd tokens)[p]? = some t ∧ t.isEof = true

/-- Whether a state has the token at a position in front. -/
def CursorAt (tokens : List Token) (p : Nat) (s : State) : Prop :=
  p < (upToEnd tokens).length ∧ s.rest ++ [endingOf tokens] = (upToEnd tokens).drop p

/-- The words that start a statement or a declaration. -/
def openingWords : List Keyword :=
  [.classWord, .funWord, .varWord, .forWord, .ifWord, .whileWord, .printWord, .returnWord]

/-- Whether reading may resume at a position of a list: after a semicolon, before the end, or
    before a word that starts a statement. -/
def ResumesAt (all : List Token) (q : Nat) : Prop :=
  (∃ t, all[q - 1]? = some t ∧ t.kind = .punctuator .semicolon) ∨
  ∃ t, all[q]? = some t ∧ (t.isEof = true ∨ ∃ k ∈ openingWords, t.kind = .keyword k)

theorem endingOf_isEof (tokens : List Token) : (endingOf tokens).isEof = true := by
  unfold endingOf
  cases found : tokens.find? (·.isEof) with
  | some ending => exact List.find?_some found
  | none => rfl

theorem not_isEof_of_mem_bodyOf {t : Token} (h : t ∈ bodyOf tokens) : t.isEof = false := by
  have kept := List.mem_takeWhile_imp h
  simpa using kept

theorem bodyOf_append_ending (w : List Token) {ending : Token} (isEnd : ending.isEof = true)
    (rest : List Token) : bodyOf (w ++ ending :: rest) = bodyOf w := by
  unfold bodyOf
  induction w with
  | nil => simp [isEnd]
  | cons t w ih =>
    rw [List.cons_append, List.takeWhile_cons, List.takeWhile_cons, ih]

theorem endingOf_append_ending (w : List Token) {ending : Token} (isEnd : ending.isEof = true)
    (rest : List Token) :
    endingOf (w ++ ending :: rest) = (w.find? (·.isEof)).getD ending := by
  unfold endingOf
  rw [List.find?_append, List.find?_cons_of_pos isEnd]
  cases w.find? (·.isEof) <;> rfl

/-- There is one end token, and it is the last. -/
theorem endAt_iff : EndAt tokens p ↔ p + 1 = (upToEnd tokens).length := by
  have length : (upToEnd tokens).length = (bodyOf tokens).length + 1 := List.length_append
  constructor
  · intro h
    obtain ⟨t, found, isEnd⟩ := h
    rcases Nat.lt_or_ge p (bodyOf tokens).length with inside | beyond
    · rw [upToEnd, List.getElem?_append_left inside] at found
      rw [not_isEof_of_mem_bodyOf (List.mem_of_getElem? found)] at isEnd
      cases isEnd
    · obtain ⟨below, _⟩ := List.getElem?_eq_some_iff.mp found
      omega
  · intro last
    refine ⟨endingOf tokens, ?_, endingOf_isEof tokens⟩
    have here : p = (bodyOf tokens).length := by omega
    rw [here, upToEnd, List.getElem?_concat_length]

/-- The tokens up to the end are a first part of the list, or the list has no end token. -/
theorem upToEnd_cases (tokens : List Token) :
    upToEnd tokens <+: tokens ∨
      (∀ t ∈ tokens, t.isEof = false) ∧ upToEnd tokens = tokens ++ [endingOf tokens] := by
  unfold upToEnd bodyOf
  cases found : tokens.find? (·.isEof) with
  | some ending =>
    left
    have last : endingOf tokens = ending := by rw [endingOf, found]
    obtain ⟨isEnd, before, after, rfl, none⟩ := List.find?_eq_some_iff_append.mp found
    rw [last, List.takeWhile_append_of_pos none, List.takeWhile_cons_of_neg (by simp [isEnd]),
      List.append_nil]
    exact ⟨after, by simp⟩
  | none =>
    right
    have none : ∀ t ∈ tokens, t.isEof = false := by simpa using List.find?_eq_none.mp found
    refine ⟨none, ?_⟩
    rw [List.takeWhile_eq_self_iff.mpr]
    intro t ht
    rw [none t ht]
    rfl

/-! ### Cursors -/

theorem cursorAt_start (fresh : NodeId) (tokens : List Token) :
    CursorAt tokens 0 (start fresh tokens) :=
  ⟨by simp [upToEnd], rfl⟩

theorem CursorAt.rest_eq_nil_iff (h : CursorAt tokens p s) : s.rest = [] ↔ EndAt tokens p := by
  have length := congrArg List.length h.2
  rw [List.length_append, List.length_singleton, List.length_drop] at length
  rw [endAt_iff, ← List.length_eq_zero_iff]
  have below := h.1
  omega

/-- Moving ahead moves the cursor on, by as many positions as tokens were taken. -/
theorem CursorAt.ahead (h : CursorAt tokens p s) (ahead : s'.rest <:+ s.rest) :
    ∃ q, CursorAt tokens q s' ∧ q + s'.rest.length = p + s.rest.length := by
  obtain ⟨taken, split⟩ := ahead
  have there : (upToEnd tokens).drop (p + taken.length) = s'.rest ++ [endingOf tokens] := by
    rw [← List.drop_drop, ← h.2, ← split, List.append_assoc, List.drop_left]
  refine ⟨p + taken.length, ⟨?_, there.symm⟩, ?_⟩
  · have length := congrArg List.length there
    rw [List.length_append, List.length_singleton, List.length_drop] at length
    omega
  · rw [← split, List.length_append]
    omega

/-- The token in front, or the end token, is the one at the position. -/
theorem CursorAt.front (h : CursorAt tokens p s) :
    (upToEnd tokens)[p]? = some (s.rest.head?.getD (endingOf tokens)) := by
  have first : ((upToEnd tokens).drop p)[0]? = (s.rest ++ [endingOf tokens])[0]? := by rw [h.2]
  rw [List.getElem?_drop, Nat.add_zero] at first
  rw [first]
  cases s.rest <;> rfl

/-- No token before the end is an end token. -/
theorem CursorAt.inner (h : CursorAt tokens p s) : ∀ t ∈ s.rest, t.isEof = false := by
  intro t ht
  -- the end token is the last one, and `t` is not the last
  obtain ⟨i, found⟩ := List.getElem?_of_mem ht
  obtain ⟨below, _⟩ := List.getElem?_eq_some_iff.mp found
  have there : (upToEnd tokens)[p + i]? = some t := by
    rw [← List.getElem?_drop, ← h.2, List.getElem?_append_left below, found]
  have length := congrArg List.length h.2
  rw [List.length_append, List.length_singleton, List.length_drop] at length
  by_contra isEnd
  have last := endAt_iff.mp ⟨t, there, by simpa using isEnd⟩
  omega

/-! ### Where reading resumes -/

theorem startsStatement_iff {t : Token} :
    startsStatement t = true ↔ ∃ k ∈ openingWords, t.kind = .keyword k := by
  unfold startsStatement
  constructor
  · intro h
    split at h
    · next k kind => exact ⟨k, by simpa [openingWords] using h, kind⟩
    · cases h
  · intro h
    obtain ⟨k, known, kind⟩ := h
    rw [kind]
    simpa [openingWords] using known

theorem resumesAt_cons {t : Token} {all : List Token} {q : Nat} (positive : 0 < q) :
    ResumesAt (t :: all) (q + 1) ↔ ResumesAt all q := by
  obtain ⟨q, rfl⟩ := Nat.exists_eq_succ_of_ne_zero (Nat.ne_of_gt positive)
  exact Iff.rfl

theorem resumesAt_drop {all : List Token} {p q : Nat} (positive : 0 < q) :
    ResumesAt (all.drop p) q ↔ ResumesAt all (p + q) := by
  have before : p + q - 1 = p + (q - 1) := by omega
  unfold ResumesAt
  rw [List.getElem?_drop, List.getElem?_drop, before]

/-- Tokens are dropped up to the first place after the error where reading may resume. -/
theorem resume_isLeast {ending : Token} (isEnd : ending.isEof = true) : ∀ ts : List Token,
    ts ≠ [] → (∀ t ∈ ts, t.isEof = false) → ∃ k, k ≤ ts.length ∧ resume ts = ts.drop k ∧
      IsLeast {q | 0 < q ∧ ResumesAt (ts ++ [ending]) q} k
  | [t], _, _ => by
    refine ⟨1, Nat.le_refl _, rfl, ⟨Nat.zero_lt_one, ?_⟩, fun q hq => hq.1⟩
    exact .inr ⟨ending, rfl, .inl isEnd⟩
  | t :: next :: rest, _, inner => by
    by_cases here : (t.kind == .punctuator .semicolon || startsStatement next) = true
    · refine ⟨1, by simp, ?_, ⟨Nat.zero_lt_one, ?_⟩, fun q hq => hq.1⟩
      · rw [resume, if_pos here]
        rfl
      · rcases Bool.or_eq_true_iff.mp here with after | before
        · exact .inl ⟨t, rfl, beq_iff_eq.mp after⟩
        · exact .inr ⟨next, rfl, .inr (startsStatement_iff.mp before)⟩
    · obtain ⟨k, inside, dropped, member, least⟩ := resume_isLeast isEnd (next :: rest)
        (List.cons_ne_nil _ _) fun u hu => inner u (List.mem_cons_of_mem t hu)
      refine ⟨k + 1, Nat.succ_le_succ inside, ?_, ⟨Nat.succ_pos k, ?_⟩, ?_⟩
      · rw [resume, if_neg here, dropped]
        rfl
      · exact (resumesAt_cons member.1).mpr member.2
      · intro q hq
        obtain ⟨positive, resumes⟩ := hq
        obtain ⟨q, rfl⟩ := Nat.exists_eq_succ_of_ne_zero (Nat.ne_of_gt positive)
        by_cases first : q = 0
        · -- the place right after the error is none, or the tokens would stay
          subst first
          refine absurd ?_ here
          rcases resumes with ⟨u, found, semicolon⟩ | ⟨u, found, isEof | opens⟩
          · cases found
            simp [semicolon]
          · cases found
            rw [inner next (by simp)] at isEof
            cases isEof
          · cases found
            simp [startsStatement_iff.mpr opens]
        · have later := (resumesAt_cons (Nat.pos_of_ne_zero first)).mp resumes
          exact Nat.succ_le_succ (least ⟨Nat.pos_of_ne_zero first, later⟩)

/-- After an error before the end the cursor is at the next place where reading may
    resume. -/
theorem CursorAt.resume (h : CursorAt tokens p s) (before : ¬EndAt tokens p)
    (rest : s'.rest = resume s.rest) :
    ∃ q, CursorAt tokens q s' ∧ IsLeast {q | p < q ∧ ResumesAt (upToEnd tokens) q} q := by
  have nonempty : s.rest ≠ [] := fun none => before (h.rest_eq_nil_iff.mp none)
  obtain ⟨k, inside, dropped, member, least⟩ :=
    resume_isLeast (endingOf_isEof tokens) s.rest nonempty h.inner
  rw [h.2] at member least
  obtain ⟨q, cursor, same⟩ := h.ahead (rest ▸ resume_suffix s.rest)
  have position : q = p + k := by
    rw [rest, dropped, List.length_drop] at same
    omega
  subst position
  refine ⟨p + k, cursor, ⟨?_, (resumesAt_drop member.1).mp member.2⟩, ?_⟩
  · have positive : 0 < k := member.1
    show p < p + k
    omega
  · intro q hq
    obtain ⟨beyond, resumes⟩ := hq
    obtain ⟨j, rfl⟩ : ∃ j, q = p + j := Nat.exists_eq_add_of_le (Nat.le_of_lt beyond)
    have positive : 0 < j := by omega
    exact Nat.add_le_add_left (least ⟨positive, (resumesAt_drop positive).mpr resumes⟩) p

/-! ### All tokens -/

/-- What the cursor over all tokens does at a position with the tokens that are left before it.
    It finds a token wherever it looks, it does what the parser does with the tokens before the
    first end token, and it is not moved past that. -/
structure CursorReads (tokens : List Token) (p : Nat) (s : State) : Prop where
  peek : (TokenCursor.placed tokens p).peek = some (s.rest.head?.getD (endingOf tokens))
  atEnd : (TokenCursor.placed tokens p).atEnd = some s.rest.isEmpty
  check : ∀ kind, (TokenCursor.placed tokens p).check kind =
    some (s.rest.head?.any (·.kind.agrees kind))
  advance : ∀ t rest, s.rest = t :: rest →
    (TokenCursor.placed tokens p).advance = some (t, TokenCursor.placed tokens (p + 1)) ∧
      CursorAt tokens (p + 1) { s with rest }
  stay : s.rest = [] →
    ∃ t, (TokenCursor.placed tokens p).advance = some (t, TokenCursor.placed tokens p)
  accept : ∀ kind, ∃ found s' q, accept? kind s = .ok found s' ∧
    (TokenCursor.placed tokens p).accept kind =
      some (found.isSome, TokenCursor.placed tokens q) ∧ CursorAt tokens q s'
  consume : ∀ kind cause,
    (∃ t s' q, expect kind cause s = .ok t s' ∧ (TokenCursor.placed tokens p).consume kind =
      some (.ok (t, TokenCursor.placed tokens q)) ∧ CursorAt tokens q s') ∨
    ∃ e, expect kind cause s = .error e s ∧ (TokenCursor.placed tokens p).consume kind =
      some (.error (e.token.getD (endingOf tokens)))
  synchronize : ∃ q,
    (TokenCursor.placed tokens p).synchronize = some (TokenCursor.placed tokens q) ∧
      CursorAt tokens q { s with rest := Grammar.resume s.rest }

/-- The tokens behind the first end token come after those that the cursor gets to see. -/
theorem upToEnd_prefix_completed (tokens : List Token) : upToEnd tokens <+: completed tokens := by
  rcases upToEnd_cases tokens with ahead | ⟨none, whole⟩
  · refine ahead.trans ?_
    unfold completed
    split
    · split
      · exact List.prefix_rfl
      · exact List.prefix_append ..
    · next empty =>
      rw [List.getLast?_eq_none_iff.mp empty]
      exact List.nil_prefix
  · have missing : tokens.find? (·.isEof) = .none :=
      List.find?_eq_none.mpr fun t ht => by simp [none t ht]
    rw [whole, endingOf, missing, completed]
    cases last : tokens.getLast? with
    | none =>
      rw [List.getLast?_eq_none_iff.mp last]
      exact List.prefix_rfl
    | some t =>
      dsimp only
      rw [if_neg (by simp [none t (List.mem_of_getLast? last)])]
      exact List.prefix_rfl

theorem TokenCursor.moveOn_of_some {c : TokenCursor} {token before : Token}
    (here : c.peek = some token) (behind : c.previous = some before) : c.moveOn =
      if token.isEof || before.kind == .punctuator .semicolon || startsStatement token then some c
      else TokenCursor.moveOn { c with current := c.current + 1 } := by
  rw [TokenCursor.moveOn]
  split
  · next here' behind' =>
    cases here.symm.trans here'
    cases behind.symm.trans behind'
    rfl
  · next missing => exact absurd behind (missing token before here)

namespace CursorAt

variable (h : CursorAt tokens p s)
include h

theorem peek_eq : (TokenCursor.placed tokens p).peek =
    some (s.rest.head?.getD (endingOf tokens)) := by
  obtain ⟨behind, whole⟩ := upToEnd_prefix_completed tokens
  show (completed tokens)[p]? = _
  rw [← whole, List.getElem?_append_left h.1, h.front]

theorem atEnd_eq : (TokenCursor.placed tokens p).atEnd = some s.rest.isEmpty := by
  unfold TokenCursor.atEnd
  rw [h.peek_eq]
  have inner := h.inner
  cases rest : s.rest with
  | nil => exact congrArg some (endingOf_isEof tokens)
  | cons t rest' =>
    rw [rest] at inner
    exact congrArg some (inner t (List.mem_cons_self ..))

theorem check_eq (kind : TokenKind) : (TokenCursor.placed tokens p).check kind =
    some (s.rest.head?.any (·.kind.agrees kind)) := by
  unfold TokenCursor.check
  rw [h.atEnd_eq, h.peek_eq]
  cases s.rest <;> rfl

theorem step {t : Token} {rest : List Token} (front : s.rest = t :: rest) :
    CursorAt tokens (p + 1) { s with rest } := by
  have shorter : rest <:+ s.rest := front ▸ List.suffix_cons t rest
  obtain ⟨q, cursor, same⟩ : ∃ q, CursorAt tokens q { s with rest } ∧
      q + rest.length = p + s.rest.length := h.ahead shorter
  obtain rfl : q = p + 1 := by
    rw [front, List.length_cons] at same
    omega
  exact cursor

theorem advance_of_cons {t : Token} {rest : List Token} (front : s.rest = t :: rest) :
    (TokenCursor.placed tokens p).advance = some (t, TokenCursor.placed tokens (p + 1)) := by
  have here := h.peek_eq
  unfold TokenCursor.advance
  rw [h.atEnd_eq, front]
  rw [front] at here
  show (TokenCursor.previous ⟨completed tokens, p + 1⟩ >>= _) = _
  have there : TokenCursor.previous ⟨completed tokens, p + 1⟩ = some t := here
  rw [there]
  rfl

/-- At the end the cursor stays. -/
theorem advance_of_nil (front : s.rest = []) :
    ∃ t, (TokenCursor.placed tokens p).advance = some (t, TokenCursor.placed tokens p) := by
  obtain ⟨below, _⟩ := List.getElem?_eq_some_iff.mp h.peek_eq
  have before : p - 1 < (completed tokens).length := Nat.lt_of_le_of_lt (Nat.sub_le p 1) below
  refine ⟨(completed tokens)[p - 1], ?_⟩
  unfold TokenCursor.advance
  rw [h.atEnd_eq, front]
  show (TokenCursor.previous ⟨completed tokens, p⟩ >>= _) = _
  have there : TokenCursor.previous ⟨completed tokens, p⟩ = some (completed tokens)[p - 1] :=
    List.getElem?_eq_getElem before
  rw [there]
  rfl

/-- From place to place the cursor moves on like the tokens that are left, with the token
    before them in front. -/
theorem moveOn_eq {before : Token}
    (behind : (TokenCursor.placed tokens p).previous = some before) :
    ∃ q, (TokenCursor.placed tokens p).moveOn = some (TokenCursor.placed tokens q) ∧
      CursorAt tokens q { s with rest := Grammar.resume (before :: s.rest) } := by
  have here := h.peek_eq
  have inner := h.inner
  induction rest : s.rest generalizing p s before with
  | nil =>
    rw [rest] at here
    rw [TokenCursor.moveOn_of_some here behind, List.head?_nil, Option.getD_none,
      endingOf_isEof tokens]
    refine ⟨p, rfl, ?_⟩
    show CursorAt tokens p { s with rest := [] }
    rw [← rest]
    exact h
  | cons t rest' ih =>
    rw [rest] at here inner
    rw [TokenCursor.moveOn_of_some here behind, List.head?_cons, Option.getD_some,
      inner t (List.mem_cons_self ..), Grammar.resume]
    by_cases stops : (before.kind == .punctuator .semicolon || startsStatement t) = true
    · rw [if_pos stops]
      refine ⟨p, ?_, rest ▸ h⟩
      simp only [Bool.false_or, stops, if_true]
    · rw [if_neg stops]
      have next := h.step rest
      have passed : (TokenCursor.placed tokens (p + 1)).previous = some t := here
      obtain ⟨q, moved, cursor⟩ := ih next passed next.peek_eq next.inner rfl
      refine ⟨q, ?_, cursor⟩
      simp only [Bool.false_or, stops]
      exact moved

theorem accept_eq (kind : TokenKind) : ∃ found s' q, accept? kind s = .ok found s' ∧
    (TokenCursor.placed tokens p).accept kind =
      some (found.isSome, TokenCursor.placed tokens q) ∧ CursorAt tokens q s' := by
  have checked := h.check_eq kind
  unfold TokenCursor.accept accept? select
  rw [checked]
  cases rest : s.rest with
  | nil => exact ⟨none, s, p, rfl, rfl, h⟩
  | cons t rest' =>
    by_cases agrees : t.kind.agrees kind = true
    · rw [h.advance_of_cons rest, List.head?_cons, Option.any_some, agrees]
      exact ⟨some t, { s with rest := rest' }, p + 1, by simp only [agrees]; rfl, rfl, h.step rest⟩
    · rw [List.head?_cons, Option.any_some, Bool.eq_false_of_not_eq_true agrees]
      exact ⟨none, s, p, by simp only [agrees]; rfl, rfl, h⟩

theorem consume_eq (kind : TokenKind) (cause : Cause) :
    (∃ t s' q, expect kind cause s = .ok t s' ∧ (TokenCursor.placed tokens p).consume kind =
      some (.ok (t, TokenCursor.placed tokens q)) ∧ CursorAt tokens q s') ∨
    ∃ e, expect kind cause s = .error e s ∧ (TokenCursor.placed tokens p).consume kind =
      some (.error (e.token.getD (endingOf tokens))) := by
  have checked := h.check_eq kind
  have here := h.peek_eq
  unfold TokenCursor.consume expect select
  rw [checked]
  cases rest : s.rest with
  | nil =>
    rw [here, rest]
    exact .inr ⟨⟨none, cause⟩, by simp [reject, rest], rfl⟩
  | cons t rest' =>
    by_cases agrees : t.kind.agrees kind = true
    · rw [h.advance_of_cons rest, List.head?_cons, Option.any_some, agrees]
      exact .inl ⟨t, { s with rest := rest' }, p + 1, by simp only [agrees]; rfl, rfl,
        h.step rest⟩
    · rw [here, rest, List.head?_cons, Option.any_some, Bool.eq_false_of_not_eq_true agrees]
      exact .inr ⟨⟨some t, cause⟩, by simp [reject, rest, agrees], rfl⟩

theorem synchronize_eq : ∃ q,
    (TokenCursor.placed tokens p).synchronize = some (TokenCursor.placed tokens q) ∧
      CursorAt tokens q { s with rest := Grammar.resume s.rest } := by
  unfold TokenCursor.synchronize
  cases rest : s.rest with
  | nil =>
    obtain ⟨before, stays⟩ := h.advance_of_nil rest
    obtain ⟨below, _⟩ := List.getElem?_eq_some_iff.mp h.peek_eq
    obtain ⟨q, moved, cursor⟩ := h.moveOn_eq (List.getElem?_eq_getElem
      (Nat.lt_of_le_of_lt (Nat.sub_le p 1) below))
    rw [rest] at cursor
    rw [stays]
    exact ⟨q, moved, cursor⟩
  | cons t rest' =>
    have next := h.step rest
    have here := h.peek_eq
    rw [rest] at here
    have passed : (TokenCursor.placed tokens (p + 1)).previous = some t := here
    obtain ⟨q, moved, cursor⟩ := next.moveOn_eq passed
    rw [h.advance_of_cons rest]
    exact ⟨q, moved, cursor⟩

theorem reads : CursorReads tokens p s where
  peek := h.peek_eq
  atEnd := h.atEnd_eq
  check := h.check_eq
  advance := fun _ _ front => ⟨h.advance_of_cons front, h.step front⟩
  stay := h.advance_of_nil
  accept := h.accept_eq
  consume := h.consume_eq
  synchronize := h.synchronize_eq

end CursorAt

/-! ### Without bounds -/

/-- A statement, read with as much nesting as the tokens left allow. -/
def nestedStatement : Parser Stmt := do
  statement (← remaining)

/-- A declaration, read with as much nesting as the tokens left allow. -/
def nestedDeclaration : Parser (Option Stmt) := do
  declaration (← remaining)

/-- Whether all bounds that are not below the number of tokens left come to the same. -/
def Unfelt (f : Nat → Parser α) : Prop :=
  ∀ bound s, s.rest.length ≤ bound → f bound s = f s.rest.length s

theorem unfelt_of_alike {strict : Bool} {f : Nat → Parser α}
    (h : ∀ n bound, n ≤ bound → Alike strict (n + 1) (f bound) (f n)) : Unfelt f :=
  fun bound s enough => (h _ bound enough s (Nat.lt_succ_self _)).1

theorem unfelt_expression : Unfelt expression :=
  unfelt_of_alike fun _ _ enough => alike_expression (Nat.succ_le_succ enough) (Nat.le_refl _)

theorem alike_nestedExpression {n depth : Nat} (enough : n ≤ depth + 1) :
    Alike true n (expression depth) nestedExpression := by
  intro s few
  refine ⟨?_, (expression_moves depth s few).2⟩
  exact unfelt_expression depth s (by omega)

theorem alike_nestedStatement {n depth : Nat} (enough : n ≤ depth + 1) :
    Alike true n (statement depth) nestedStatement := by
  intro s few
  refine ⟨?_, ((statement_declaration_move depth n).1 s few).2⟩
  exact ((alike_statement_declaration (by omega) (Nat.le_refl _)).1 s (Nat.lt_succ_self _)).1

theorem alike_nestedDeclaration {n depth : Nat} (enough : n ≤ depth + 1) :
    Alike true n (declaration depth) nestedDeclaration := by
  intro s few
  refine ⟨?_, ((statement_declaration_move depth n).2 s few).2⟩
  exact ((alike_statement_declaration (by omega) (Nat.le_refl _)).2 s (Nat.lt_succ_self _)).1

theorem nestedExpression_eq : nestedExpression = assignment nestedExpression := by
  funext s
  have more := unfelt_expression (s.rest.length + 1) s (Nat.le_succ _)
  have inner : Alike true s.rest.length (expression s.rest.length) nestedExpression :=
    alike_nestedExpression (Nat.le_succ _)
  exact more.symm.trans (alike_assignment inner s (Nat.lt_succ_self _)).1

theorem nestedStatement_eq : nestedStatement = anyStatement nestedStatement nestedDeclaration := by
  funext s
  have more := ((alike_nestedStatement (Nat.le_refl _)).mono (Nat.le_succ _) s
    (Nat.lt_succ_self _)).1
  have stmt := alike_nestedStatement (Nat.le_succ s.rest.length)
  have decl := alike_nestedDeclaration (Nat.le_succ s.rest.length)
  rw [← more, statement]
  exact (alike_anyStatement stmt decl s (Nat.lt_succ_self _)).1

theorem nestedDeclaration_eq : nestedDeclaration =
    recovering (declaring nestedStatement nestedDeclaration) := by
  funext s
  have more := ((alike_nestedDeclaration (Nat.le_refl _)).mono (Nat.le_succ _) s
    (Nat.lt_succ_self _)).1
  have stmt := alike_nestedStatement (Nat.le_succ s.rest.length)
  have decl := alike_nestedDeclaration (Nat.le_succ s.rest.length)
  rw [← more, declaration_succ]
  exact (alike_recovering (alike_declaring stmt decl) s (Nat.lt_succ_self _)).1

theorem nestedStatement_moves {n : Nat} : Alike true n nestedStatement nestedStatement :=
  alike_remaining fun bound _ => (statement_declaration_move bound _).1

theorem nestedDeclaration_moves {n : Nat} : Alike true n nestedDeclaration nestedDeclaration :=
  alike_remaining fun bound _ => (statement_declaration_move bound _).2

theorem unfelt_itemsUntil {stop : Parser Bool} {item : Parser α} (halts : Halts stop)
    (h : ∀ n, Alike true n item item) : Unfelt (itemsUntil stop item) := by
  apply unfelt_of_alike
  intro n bound enough
  exact alike_itemsUntil halts (h _) (Nat.succ_le_succ enough) (Nat.le_refl _)

theorem unfelt_moreItems {item : Nat → Parser α}
    (h : ∀ n count, Alike true n (item count) (item count)) (count : Nat) :
    Unfelt fun bound => moreItems item bound count := by
  apply unfelt_of_alike
  intro n bound enough
  exact alike_moreItems count (fun count => (h _ count).loose) (Nat.succ_le_succ enough)
    (Nat.le_refl _)

theorem program_eq :
    program = List.filterMap id <$> (remaining >>= itemsUntil atEnd nestedDeclaration) := by
  funext s
  rw [map_eq_bind]
  have items : Alike false (s.rest.length + 1)
      (itemsUntil atEnd (declaration s.rest.length) s.rest.length)
      (itemsUntil atEnd nestedDeclaration s.rest.length) :=
    alike_itemsUntil halts_atEnd (alike_nestedDeclaration (Nat.le_refl _)) (Nat.le_refl _)
      (Nat.le_refl _)
  exact ((items.bind fun found => .pure (found.filterMap id)) s (Nat.lt_succ_self _)).1

/-- The readers of nested phrases satisfy the equations of the grammar without bounds, and no
    repetition ends for its bound. -/
structure NoBoundFelt : Prop where
  expression : nestedExpression = assignment nestedExpression
  statement : nestedStatement = anyStatement nestedStatement nestedDeclaration
  declaration : nestedDeclaration = anyDeclaration nestedStatement nestedDeclaration
  program : program = List.filterMap id <$> (remaining >>= itemsUntil atEnd nestedDeclaration)
  topLevel : Unfelt (itemsUntil atEnd nestedDeclaration)
  block : Unfelt (itemsUntil atBodyEnd nestedDeclaration)
  methods : Unfelt (itemsUntil atBodyEnd (routine .method nestedDeclaration))
  parameters : ∀ count, Unfelt fun bound => moreItems parameter bound count
  arguments : ∀ count, Unfelt fun bound => moreItems (argument nestedExpression) bound count
  suffixes : ∀ e, Unfelt fun bound => suffixes nestedExpression bound e
  prefixed : Unfelt (unary nestedExpression)
  operators : ∀ (level : Level) tighter left,
    Unfelt fun bound => level.chain (operation nestedExpression tighter) bound left

theorem noBoundFelt : NoBoundFelt where
  expression := nestedExpression_eq
  statement := nestedStatement_eq
  declaration := nestedDeclaration_eq
  program := program_eq
  topLevel := unfelt_itemsUntil halts_atEnd fun _ => nestedDeclaration_moves
  block := unfelt_itemsUntil halts_atBodyEnd fun _ => nestedDeclaration_moves
  methods := unfelt_itemsUntil halts_atBodyEnd fun _ =>
    alike_routine .method nestedDeclaration_moves
  parameters := unfelt_moreItems fun _ => alike_limited (alike_expect _ _) _
  arguments := unfelt_moreItems fun _ => alike_limited nestedExpression_moves _
  suffixes := fun e => unfelt_of_alike fun _ _ enough =>
    alike_suffixes e nestedExpression_moves enough (Nat.le_refl _)
  prefixed := unfelt_of_alike fun _ _ enough =>
    alike_unary nestedExpression_moves enough (Nat.le_refl _)
  operators := fun level tighter left => unfelt_of_alike fun _ _ enough =>
    alike_chain level left (alike_operation nestedExpression_moves tighter)
      (Nat.succ_le_succ enough) (Nat.le_refl _)

/-! ### Reading to the end -/

theorem recovering_total (rule : Parser α) (s : State) :
    ∃ o s', recovering rule s = .ok o s' := by
  cases run : rule s with
  | ok a s' => exact ⟨_, _, recovering_ok run⟩
  | error e s' => exact ⟨_, _, recovering_error run⟩

/-- A repetition up to the end gets there, if each item takes a token and none gives up. -/
theorem itemsUntil_atEnd {item : Parser α} (total : ∀ s, ∃ a s', item s = .ok a s')
    (moves : ∀ n, Alike true n item item) {bound : Nat} : ∀ {s : State}, s.rest.length ≤ bound →
      ∃ items s', itemsUntil atEnd item bound s = .ok items s' ∧ s'.rest = [] := by
  induction bound with
  | zero =>
    intro s enough
    exact ⟨[], s, rfl, List.length_eq_zero_iff.mp (Nat.le_zero.mp enough)⟩
  | succ bound ih =>
    intro s enough
    by_cases ended : s.rest = []
    · have stops : atEnd s = .ok true s := by rw [atEnd, ended]; rfl
      exact ⟨[], s, itemsUntil_stop stops _, ended⟩
    · have goes : atEnd s = .ok false s := by rw [atEnd, List.isEmpty_eq_false_iff.mpr ended]
      obtain ⟨a, s', run⟩ := total s
      have moved := (moves _ s (Nat.lt_succ_self _)).2
      rw [run] at moved
      have shorter := moved.2 rfl ended
      obtain ⟨items, s'', more, last⟩ := ih (s := s') (by omega)
      refine ⟨a :: items, s'', ?_, last⟩
      rw [itemsUntil_item goes, bind_of_ok run, bind_of_ok more]
      rfl

theorem program_ends (s : State) :
    ∃ statements s', program s = .ok statements s' ∧ s'.rest = [] := by
  have total : ∀ s, ∃ o s', nestedDeclaration s = .ok o s' := by
    rw [nestedDeclaration_eq]
    exact recovering_total _
  obtain ⟨items, s', run, last⟩ : ∃ items s',
      itemsUntil atEnd nestedDeclaration s.rest.length s = .ok items s' ∧ s'.rest = [] :=
    itemsUntil_atEnd total (fun _ => nestedDeclaration_moves) (Nat.le_refl _)
  refine ⟨items.filterMap id, s', ?_, last⟩
  rw [program_eq, map_eq_bind]
  exact bind_of_ok run

/-- What reading a declaration at a position comes to. -/
inductive DeclarationRead (tokens : List Token) (p : Nat) (s : State) : Prop where
  /-- It is read, and at least one token with it. -/
  | read {stmt : Stmt} {s' : State} {q : Nat} :
      declaring nestedStatement nestedDeclaration s = .ok stmt s' →
      nestedDeclaration s = .ok (some stmt) s' → CursorAt tokens q s' → p < q →
      DeclarationRead tokens p s
  /-- An error is raised at a position further on or here, with the token there. There is no
      node then, the error is recorded, and the cursor gets to the next place where reading
      may resume. -/
  | failed {e : SyntaxError} {s₁ s' : State} {p₁ q : Nat} :
      declaring nestedStatement nestedDeclaration s = .error e s₁ → CursorAt tokens p₁ s₁ →
      p ≤ p₁ → (upToEnd tokens)[p₁]? = some (e.token.getD (endingOf tokens)) →
      nestedDeclaration s = .ok none s' → s'.recorded = s₁.recorded ++ [e] →
      CursorAt tokens q s' → p < q → (EndAt tokens p₁ → q = p₁) →
      (¬EndAt tokens p₁ → IsLeast {q | p₁ < q ∧ ResumesAt (upToEnd tokens) q} q) →
      DeclarationRead tokens p s

theorem CursorAt.declaration (h : CursorAt tokens p s) (before : ¬EndAt tokens p) :
    DeclarationRead tokens p s := by
  have nonempty : s.rest ≠ [] := fun ended => before (h.rest_eq_nil_iff.mp ended)
  have moved := (alike_declaring nestedStatement_moves nestedDeclaration_moves s
    (Nat.lt_succ_of_lt (Nat.lt_succ_self _))).2
  cases run : declaring nestedStatement nestedDeclaration s with
  | ok d s' =>
    rw [run] at moved
    have whole : nestedDeclaration s = .ok (some d) s' := by
      rw [nestedDeclaration_eq]
      exact recovering_ok run
    obtain ⟨q, cursor, same⟩ := h.ahead moved.1
    have shorter := moved.2 rfl nonempty
    exact .read run whole cursor (by omega)
  | error e s₁ =>
    rw [run] at moved
    obtain ⟨ahead, token⟩ := moved
    let s' : State :=
      { s₁ with rest := Grammar.resume s₁.rest, recorded := s₁.recorded ++ [e] }
    have whole : nestedDeclaration s = .ok none s' := by
      rw [nestedDeclaration_eq]
      exact recovering_error run
    obtain ⟨p₁, cursor, same⟩ := h.ahead ahead
    have shorter := ahead.length_le
    have further : p ≤ p₁ := by omega
    have front := cursor.front
    rw [← token] at front
    by_cases ended : EndAt tokens p₁
    · have nothing : s₁.rest = [] := cursor.rest_eq_nil_iff.mpr ended
      have stays : CursorAt tokens p₁ s' := by
        refine ⟨cursor.1, ?_⟩
        show Grammar.resume s₁.rest ++ _ = _
        rw [← cursor.2, nothing]
        rfl
      refine .failed run cursor further front whole rfl stays ?_ (fun _ => rfl) fun no =>
        absurd ended no
      -- the error is at the end token, and the declaration was begun before it
      exact Nat.lt_of_le_of_ne further fun same => before (same ▸ ended)
    · have resumed : s'.rest = Grammar.resume s₁.rest := rfl
      obtain ⟨q, cursor', least⟩ := cursor.resume ended resumed
      exact .failed run cursor further front whole rfl cursor'
        (Nat.lt_of_le_of_lt further least.1.1) (fun yes => absurd yes ended) fun _ => least

theorem CursorAt.moved {strict : Bool} {rule : Parser α} (h : CursorAt tokens p s)
    (moves : ∀ n, Alike strict n rule rule) :
    ∃ q, p ≤ q ∧ CursorAt tokens q (finalState (rule s)) := by
  have ahead := (moves _ s (Nat.lt_succ_self _)).2.suffix
  obtain ⟨q, cursor, same⟩ := h.ahead ahead
  have shorter := ahead.length_le
  exact ⟨q, by omega, cursor⟩

/-! ### Progress -/

/-- Reading never looks past the first end token, of which there is one in what it looks at,
    and gets on with every declaration, for whatever list of tokens. A cursor over all of them
    does what reading does with those before the end, and finds a token wherever it looks. A
    program is read up to the end token; the cursor of an expression, a statement or a
    declaration moves on and stays at a token; a declaration begun before the end takes at
    least one token, and one that fails leaves its error and no node, and the cursor where
    reading may resume. None of the bounds that make reading end is ever felt. -/
theorem reading_makes_progress :
    NoBoundFelt ∧
    (∀ fresh w ending rest rest', ending.isEof = true →
      readProgram fresh (w ++ ending :: rest) = readProgram fresh (w ++ ending :: rest') ∧
      readExpression fresh (w ++ ending :: rest) = readExpression fresh (w ++ ending :: rest')) ∧
    (∀ tokens, (∀ p, EndAt tokens p ↔ p + 1 = (upToEnd tokens).length) ∧
      (upToEnd tokens <+: tokens ∨
        (∀ t ∈ tokens, t.isEof = false) ∧ upToEnd tokens = tokens ++ [endingOf tokens])) ∧
    (∀ fresh tokens, CursorAt tokens 0 (start fresh tokens) ∧
      ∃ statements s p, program (start fresh tokens) = .ok statements s ∧ CursorAt tokens p s ∧
        EndAt tokens p) ∧
    (∀ tokens p s, CursorAt tokens p s → CursorReads tokens p s ∧
      (∃ q, p ≤ q ∧ CursorAt tokens q (finalState (nestedExpression s))) ∧
      (∃ q, p ≤ q ∧ CursorAt tokens q (finalState (nestedStatement s))) ∧
      (∃ q, p ≤ q ∧ CursorAt tokens q (finalState (nestedDeclaration s))) ∧
      s.recorded <+: (finalState (nestedDeclaration s)).recorded) ∧
    ∀ tokens p s, CursorAt tokens p s → ¬EndAt tokens p → DeclarationRead tokens p s := by
  refine ⟨noBoundFelt, ?_, ?_, ?_, ?_, ?_⟩
  · intro fresh w ending rest rest' isEnd
    have body : bodyOf (w ++ ending :: rest) = bodyOf (w ++ ending :: rest') := by
      rw [bodyOf_append_ending w isEnd, bodyOf_append_ending w isEnd]
    have last : endingOf (w ++ ending :: rest) = endingOf (w ++ ending :: rest') := by
      rw [endingOf_append_ending w isEnd, endingOf_append_ending w isEnd]
    have begun : start fresh (w ++ ending :: rest) = start fresh (w ++ ending :: rest') := by
      rw [start, start, body]
    rw [readProgram, readProgram, readExpression, readExpression, begun, last]
    exact ⟨rfl, rfl⟩
  · exact fun tokens => ⟨fun p => endAt_iff, upToEnd_cases tokens⟩
  · intro fresh tokens
    have cursor := cursorAt_start fresh tokens
    refine ⟨cursor, ?_⟩
    obtain ⟨statements, s, run, last⟩ := program_ends (start fresh tokens)
    have ahead : s.rest <:+ (start fresh tokens).rest := by
      rw [last]
      exact List.nil_suffix
    obtain ⟨p, there, _⟩ := cursor.ahead ahead
    exact ⟨statements, s, p, run, there, there.rest_eq_nil_iff.mp last⟩
  · intro tokens p s cursor
    refine ⟨cursor.reads, cursor.moved fun _ => nestedExpression_moves,
      cursor.moved fun _ => nestedStatement_moves,
      cursor.moved fun _ => nestedDeclaration_moves, ?_⟩
    exact (reads_statement_declaration s.rest.length).2.keeps s
  · exact fun tokens p s cursor before => cursor.declaration before

/-- A variable without a name, followed by a statement, in a list without an end token. -/
theorem reading_makes_progress_unnamed :
    let tokens : List Token := [⟨.keyword .varWord, "var", 1⟩, ⟨.punctuator .equal, "=", 1⟩,
      ⟨.identifier, "a", 1⟩, ⟨.punctuator .semicolon, ";", 1⟩, ⟨.keyword .printWord, "print", 2⟩]
    CursorAt tokens 0 (start 0 tokens) ∧ ¬EndAt tokens 0 ∧
      DeclarationRead tokens 0 (start 0 tokens) := by
  intro tokens
  have cursor := cursorAt_start 0 tokens
  have before : ¬EndAt tokens 0 := fun ended => absurd (endAt_iff.mp ended) (by decide)
  exact ⟨cursor, before, reading_makes_progress.2.2.2.2.2 tokens 0 _ cursor before⟩

end Lox.Grammar
