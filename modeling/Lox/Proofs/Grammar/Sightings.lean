import Lox.Proofs.Grammar.Cursor

/-! # Where errors are noticed

  An error stands at a position among the tokens, and it is noticed at a position: for most
  errors that is the same one, but that a target cannot be assigned to is noticed only at the
  last token of the value (`Sighting`). A run of a parser that moves the cursor from one
  position to another notices its errors between the two, one after another (`Sees`). It holds
  of every parser that is made of such parsers; on how many tokens is bounded as in `Alike`.
-/

namespace Lox.Grammar

variable {α β : Type} {tokens : List Token} {n p q r : Nat} {s s' : State}
  {strict slack : Bool}

/-! ### Sightings -/

/-- An error, the position at which it stands, and the one at which it is noticed. -/
structure Sighting where
  error : SyntaxError
  position : Nat
  noticed : Nat

/-- How errors are noticed: at the token they stand at, or at the last token of the value after
    an equals sign whose target cannot be assigned to. -/
inductive Sighted (tokens : List Token) : Sighting → Prop where
  | here {error : SyntaxError} {p : Nat} :
      (upToEnd tokens)[p]? = some (error.token.getD (endingOf tokens)) →
      Sighted tokens ⟨error, p, p⟩
  | target {equals : Token} {p q : Nat} {value : Expr} {s s' : State} :
      (upToEnd tokens)[p]? = some equals → CursorAt tokens (p + 1) s →
      nestedExpression s = .ok value s' → p < q → CursorAt tokens (q + 1) s' →
      Sighted tokens ⟨⟨some equals, .assignmentTarget⟩, p, q⟩

/-- Errors that are noticed one after another, from one position on and before another. -/
structure InOrder (tokens : List Token) (p r : Nat) (seen : List Sighting) : Prop where
  sighted : ∀ x ∈ seen, Sighted tokens x
  from_le : ∀ x ∈ seen, p ≤ x.noticed
  lt_to : ∀ x ∈ seen, x.noticed < r
  ordered : seen.Pairwise (·.noticed ≤ ·.noticed)

theorem Sighted.position_le {x : Sighting} (h : Sighted tokens x) : x.position ≤ x.noticed := by
  cases h with
  | here => exact Nat.le_refl _
  | target _ _ _ further _ => exact Nat.le_of_lt further

theorem InOrder.nil : InOrder tokens p r [] := by
  refine ⟨?_, ?_, ?_, .nil⟩ <;> exact fun _ no => absurd no List.not_mem_nil

theorem InOrder.single {x : Sighting} (sighted : Sighted tokens x) (below : p ≤ x.noticed)
    (above : x.noticed < r) : InOrder tokens p r [x] := by
  refine ⟨?_, ?_, ?_, List.pairwise_singleton _ _⟩ <;>
    intro y mem <;> rw [List.mem_singleton.mp mem] <;> assumption

/-- The second ones are noticed where the first ones end or later. -/
theorem InOrder.append {xs ys : List Sighting} {r' : Nat} (first : InOrder tokens p r xs)
    (second : InOrder tokens q r' ys) (forth : p ≤ q) (near : r ≤ q + 1) (within : r ≤ r') :
    InOrder tokens p r' (xs ++ ys) := by
  refine ⟨?_, ?_, ?_, ?_⟩
  · intro x mem
    exact (List.mem_append.mp mem).elim (first.sighted x) (second.sighted x)
  · intro x mem
    rcases List.mem_append.mp mem with mem | mem
    · exact first.from_le x mem
    · exact Nat.le_trans forth (second.from_le x mem)
  · intro x mem
    rcases List.mem_append.mp mem with mem | mem
    · exact Nat.lt_of_lt_of_le (first.lt_to x mem) within
    · exact second.lt_to x mem
  · refine List.pairwise_append.mpr ⟨first.ordered, second.ordered, ?_⟩
    intro x hx y hy
    have below := first.lt_to x hx
    have above := second.from_le y hy
    omega

theorem InOrder.widen {xs : List Sighting} {p' r' : Nat} (h : InOrder tokens p r xs)
    (before : p' ≤ p) (after : r ≤ r') : InOrder tokens p' r' xs :=
  ⟨h.sighted, fun x mem => Nat.le_trans before (h.from_le x mem),
    fun x mem => Nat.lt_of_lt_of_le (h.lt_to x mem) after, h.ordered⟩

/-! ### The judgement -/

/-- What a run from a position on has noticed. It gives up at the token in front. Where it
    succeeds, nothing is noticed at that token, unless some slack is given: a declaration that
    is given up may leave the end token in front, at which it was given up. -/
def Seen (tokens : List Token) (strict slack : Bool) (p : Nat) (s : State) :
    EStateM.Result SyntaxError State α → Prop
  | .ok _ s' => ∃ q seen, CursorAt tokens q s' ∧ p ≤ q ∧ (strict = true → p < q) ∧
      s'.recorded = s.recorded ++ seen.map (·.error) ∧ InOrder tokens p (q + slack.toNat) seen
  | .error e s' => ∃ q seen, CursorAt tokens q s' ∧ p ≤ q ∧
      s'.recorded = s.recorded ++ seen.map (·.error) ∧
      InOrder tokens p (q + 1) (seen ++ [⟨e, q, q⟩])

/-- A parser that is run at a position with at most so many tokens behind it, the end token
    included, notices its errors in order. -/
def SeesFrom (tokens : List Token) (strict slack : Bool) (n p : Nat) (x : Parser α) : Prop :=
  ∀ s, CursorAt tokens p s → (upToEnd tokens).length ≤ p + n →
    Seen tokens strict slack p s (x s)

/-- A parser that notices its errors in order, wherever it is run. -/
def Sees (tokens : List Token) (strict slack : Bool) (n : Nat) (x : Parser α) : Prop :=
  ∀ p, SeesFrom tokens strict slack n p x

theorem slack_le : slack.toNat ≤ 1 := Bool.toNat_le slack

theorem Seen.weaken {result : EStateM.Result SyntaxError State α} {a b : Bool}
    (h : Seen tokens a slack p s result) (imp : b = true → a = true) :
    Seen tokens b slack p s result := by
  cases result with
  | ok c s' =>
    obtain ⟨q, xs, cursor, forth, moved, recorded, inOrder⟩ := h
    exact ⟨q, xs, cursor, forth, fun hb => moved (imp hb), recorded, inOrder⟩
  | error e s' => exact h

/-- A run that follows another one. -/
theorem Seen.after {xs : List Sighting} {result : EStateM.Result SyntaxError State α} {a b : Bool}
    (h : Seen tokens b slack q s' result) (forth : p ≤ q) (moved : a = true → p < q)
    (recorded : s'.recorded = s.recorded ++ xs.map (·.error))
    (first : InOrder tokens p (q + slack.toNat) xs) : Seen tokens (a || b) slack p s result := by
  -- what the first run has noticed is no further than the token in front of the second one
  have near : q + slack.toNat ≤ q + 1 := Nat.add_le_add_left slack_le q
  cases result with
  | ok c s'' =>
    obtain ⟨q', ys, cursor, forth', moved', recorded', second⟩ := h
    refine ⟨q', xs ++ ys, cursor, Nat.le_trans forth forth', ?_, ?_, ?_⟩
    · intro either
      rcases Bool.or_eq_true_iff.mp either with ha | hb
      · exact Nat.lt_of_lt_of_le (moved ha) forth'
      · exact Nat.lt_of_le_of_lt forth (moved' hb)
    · rw [recorded', recorded, List.map_append, List.append_assoc]
    · exact first.append second forth near (Nat.add_le_add_right forth' _)
  | error e s'' =>
    obtain ⟨q', ys, cursor, forth', recorded', second⟩ := h
    refine ⟨q', xs ++ ys, cursor, Nat.le_trans forth forth', ?_, ?_⟩
    · rw [recorded', recorded, List.map_append, List.append_assoc]
    · rw [List.append_assoc]
      exact first.append second forth near (Nat.le_trans near (Nat.add_le_add_right forth' 1))

namespace SeesFrom

variable {x : Parser α} {f : α → Parser β}

theorem loose (h : SeesFrom tokens strict slack n p x) : SeesFrom tokens false slack n p x :=
  fun s cursor few => (h s cursor few).weaken nofun

theorem both {a b : Bool} (first : SeesFrom tokens a slack n p x)
    (second : ∀ c q, SeesFrom tokens b slack n q (f c)) :
    SeesFrom tokens (a || b) slack n p (x >>= f) := by
  intro s cursor few
  have seen := first s cursor few
  cases run : x s with
  | ok c s' =>
    rw [run] at seen
    obtain ⟨q, xs, cursor', forth, moved, recorded, inOrder⟩ := seen
    rw [bind_of_ok run]
    exact (second c q s' cursor' (by omega)).after forth moved recorded inOrder
  | error e s' =>
    rw [run] at seen
    rw [bind_of_error run]
    exact seen

end SeesFrom

namespace Sees

variable {x : Parser α} {f : α → Parser β}

theorem zero (x : Parser α) : Sees tokens strict slack 0 x := by
  intro p s cursor few
  exact absurd cursor.1 (Nat.not_lt.mpr few)

theorem mono {n' : Nat} (h : Sees tokens strict slack n x) (fewer : n' ≤ n) :
    Sees tokens strict slack n' x :=
  fun p s cursor few => h p s cursor (Nat.le_trans few (Nat.add_le_add_left fewer p))

theorem loose (h : Sees tokens strict slack n x) : Sees tokens false slack n x :=
  fun p => (h p).loose

theorem slacken (h : Sees tokens strict false n x) : Sees tokens strict slack n x := by
  intro p s cursor few
  have seen := h p s cursor few
  cases run : x s with
  | ok a s' =>
    rw [run] at seen
    obtain ⟨q, xs, cursor', forth, moved, recorded, inOrder⟩ := seen
    exact ⟨q, xs, cursor', forth, moved, recorded,
      inOrder.widen (Nat.le_refl _) (Nat.le_add_right _ _)⟩
  | error e s' =>
    rw [run] at seen
    exact seen

theorem bind (first : Sees tokens strict slack n x)
    (second : ∀ a, Sees tokens false slack n (f a)) : Sees tokens strict slack n (x >>= f) := by
  intro p
  simpa using (first p).both second

theorem follow (first : Sees tokens false slack n x)
    (second : ∀ a, Sees tokens strict slack n (f a)) : Sees tokens strict slack n (x >>= f) := by
  intro p
  simpa using (first p).both second

/-- A parser that leaves the tokens and the errors alone. -/
theorem of_still {g : State → α} {k : State → State} (run : ∀ s, x s = .ok (g s) (k s))
    (rest : ∀ s, (k s).rest = s.rest) (recorded : ∀ s, (k s).recorded = s.recorded) :
    Sees tokens false slack n x := by
  intro p s cursor _
  rw [run s]
  refine ⟨p, [], ⟨cursor.1, ?_⟩, Nat.le_refl _, nofun, ?_, .nil⟩
  · rw [rest s]
    exact cursor.2
  · rw [recorded s]
    exact (List.append_nil _).symm

theorem pure (a : α) : Sees tokens false slack n (pure a : Parser α) :=
  of_still (fun _ => rfl) (fun _ => rfl) fun _ => rfl

theorem map (h : Sees tokens strict slack n x) (g : α → β) :
    Sees tokens strict slack n (g <$> x) := by
  rw [map_eq_bind]
  exact h.bind fun a => .pure (g a)

end Sees

/-! ### The basic parsers -/

theorem sees_remaining : Sees tokens false slack n remaining :=
  .of_still (fun _ => rfl) (fun _ => rfl) fun _ => rfl

theorem sees_nextIs (kind : TokenKind) : Sees tokens false slack n (nextIs kind) :=
  .of_still (fun _ => rfl) (fun _ => rfl) fun _ => rfl

theorem sees_atEnd : Sees tokens false slack n atEnd :=
  .of_still (fun _ => rfl) (fun _ => rfl) fun _ => rfl

theorem sees_atBodyEnd : Sees tokens false slack n atBodyEnd :=
  sees_atEnd.bind fun _ => (sees_nextIs _).bind fun _ => .pure _

theorem sees_freshNode : Sees tokens false slack n freshNode :=
  .of_still (fun _ => rfl) (fun _ => rfl) fun _ => rfl

/-- An error at the token in front is noticed there. -/
theorem CursorAt.sighted (h : CursorAt tokens p s) (cause : Cause) :
    Sighted tokens ⟨⟨s.rest.head?, cause⟩, p, p⟩ :=
  .here h.front

theorem sees_reject (cause : Cause) :
    Sees tokens strict slack n (reject cause : Parser α) := by
  intro p s cursor _
  refine ⟨p, [], cursor, Nat.le_refl _, (List.append_nil _).symm, ?_⟩
  exact .single (cursor.sighted cause) (Nat.le_refl _) (Nat.lt_succ_self _)

theorem CursorAt.cons (h : CursorAt tokens p s) {token : Token} {rest : List Token}
    (front : s.rest = token :: rest) :
    (upToEnd tokens)[p]? = some token ∧ CursorAt tokens (p + 1) { s with rest } := by
  have first := h.front
  rw [front] at first
  let next : State := { s with rest }
  have ahead : next.rest <:+ s.rest := by
    rw [front]
    exact List.suffix_cons token rest
  obtain ⟨q, cursor, same⟩ := h.ahead ahead
  have further : q + rest.length = p + (rest.length + 1) := by rwa [front] at same
  have there : q = p + 1 := by omega
  exact ⟨first, there ▸ cursor⟩

/-- The rule that is chosen is run one token further on. -/
theorem sees_selectAt {rule? : Token → Option (Parser α)} {otherwise : Parser α}
    (chosen : ∀ token, ∀ rule ∈ rule? token, ∀ p, (upToEnd tokens)[p]? = some token →
      SeesFrom tokens false slack n (p + 1) rule)
    (other : Sees tokens strict slack (n + 1) otherwise) :
    Sees tokens strict slack (n + 1) (select rule? otherwise) := by
  intro p s cursor few
  unfold select
  cases front : s.rest with
  | nil => exact other p s cursor few
  | cons token rest =>
    obtain ⟨found, next⟩ := cursor.cons front
    cases choice : rule? token with
    | none =>
      simp only [choice]
      exact other p s cursor few
    | some rule =>
      simp only [choice]
      have seen := chosen token rule choice p found { s with rest } next (by omega)
      have nothing : InOrder tokens p (p + 1 + slack.toNat) [] := .nil
      have whole : Seen tokens (true || false) slack p s (rule { s with rest }) :=
        seen.after (Nat.le_succ p) (fun _ => Nat.lt_succ_self p) (List.append_nil _).symm nothing
      exact whole.weaken fun _ => rfl

theorem sees_select {rule? : Token → Option (Parser α)} {otherwise : Parser α}
    (chosen : ∀ token, ∀ rule ∈ rule? token, Sees tokens false slack n rule)
    (other : Sees tokens strict slack (n + 1) otherwise) :
    Sees tokens strict slack (n + 1) (select rule? otherwise) :=
  sees_selectAt (fun token rule choice p _ => chosen token rule choice (p + 1)) other

theorem sees_selectIf {test : Token → Prop} [DecidablePred test] {f : Token → Parser α}
    {otherwise : Parser α} (chosen : ∀ token, Sees tokens false slack n (f token))
    (other : Sees tokens strict slack (n + 1) otherwise) :
    Sees tokens strict slack (n + 1)
      (select (fun token => if test token then some (f token) else none) otherwise) := by
  apply sees_select _ other
  intro token rule choice
  by_cases fits : test token
  · simp only [fits, if_true, Option.mem_some_iff] at choice
    exact choice ▸ chosen token
  · simp only [fits, if_false] at choice
    cases choice

theorem sees_expect (kind : TokenKind) (cause : Cause) :
    Sees tokens strict slack n (expect kind cause) :=
  (sees_selectIf (fun token => .pure token) (sees_reject cause)).mono (Nat.le_succ n)

theorem sees_introducedBy {kind : TokenKind} {x : Parser α} (h : Sees tokens false slack n x) :
    Sees tokens false slack n (introducedBy kind x) := by
  cases n with
  | zero => exact .zero _
  | succ n =>
    unfold introducedBy
    rw [accept?_bind]
    exact sees_selectIf (fun _ => (h.mono (Nat.le_succ n)).map some) (.pure none)

theorem sees_test {test : Parser Bool} {yes no : Parser α}
    (look : Sees tokens false slack n test) (hyes : Sees tokens strict slack n yes)
    (hno : Sees tokens strict slack n no) :
    Sees tokens strict slack n (do if ← test then yes else no) := by
  apply look.follow
  intro found
  by_cases h : found = true
  · rw [if_pos h]
    exact hyes
  · rw [if_neg h]
    exact hno

/-! ### Repetitions -/

theorem sees_moreItems {item : Nat → Parser α}
    (h : ∀ count, Sees tokens false slack n (item count)) (bound : Nat) :
    ∀ count, Sees tokens false slack n (moreItems item bound count) := by
  induction bound with
  | zero => exact fun _ => .pure []
  | succ bound ih =>
    intro count
    cases n with
    | zero => exact .zero _
    | succ n =>
      rw [moreItems, accept?_bind]
      apply sees_selectIf _ (.pure [])
      intro _
      apply ((h count).mono (Nat.le_succ n)).bind
      intro next
      exact ((ih (count + 1)).mono (Nat.le_succ n)).bind fun others => .pure _

theorem sees_commaSeparated {item : Nat → Parser α}
    (h : ∀ count, Sees tokens false slack n (item count)) :
    Sees tokens false slack n (commaSeparated item) := by
  apply (h 0).bind
  intro first
  apply sees_remaining.bind
  intro bound
  exact (sees_moreItems h bound 1).bind fun others => .pure _

theorem sees_itemsBeforeParen {item : Nat → Parser α}
    (h : ∀ count, Sees tokens false slack n (item count)) :
    Sees tokens false slack n (itemsBeforeParen item) :=
  sees_test (sees_nextIs _) (.pure []) (sees_commaSeparated h)

/-- That there are too many items is noticed at the token in front, which the item takes. -/
theorem sees_limited {x : Parser α} (h : Sees tokens true slack n x) (cause : Cause)
    (count : Nat) : Sees tokens true slack n (do
      if maxArity ≤ count then
        recordHere cause
      x) := by
  by_cases many : maxArity ≤ count
  · simp only [if_pos many]
    intro p s cursor few
    -- the error is recorded where the cursor is, before anything more is read
    let noted : State := { s with recorded := s.recorded ++ [⟨s.rest.head?, cause⟩] }
    let first : List Sighting := [⟨⟨s.rest.head?, cause⟩, p, p⟩]
    have begun : InOrder tokens p (p + 1) first :=
      .single (cursor.sighted cause) (Nat.le_refl p) (Nat.lt_succ_self p)
    have seen := h p noted cursor few
    show Seen tokens true slack p s (x noted)
    cases run : x noted with
    | ok a s' =>
      rw [run] at seen
      obtain ⟨q, xs, cursor', forth, moved, recorded, inOrder⟩ := seen
      have taken := moved rfl
      refine ⟨q, first ++ xs, cursor', forth, moved, ?_, ?_⟩
      · rw [recorded, List.map_append, ← List.append_assoc]
        rfl
      · exact begun.append inOrder (Nat.le_refl _) (Nat.le_refl _) (by omega)
    | error e s' =>
      rw [run] at seen
      obtain ⟨q, xs, cursor', forth, recorded, inOrder⟩ := seen
      refine ⟨q, first ++ xs, cursor', forth, ?_, ?_⟩
      · rw [recorded, List.map_append, ← List.append_assoc]
        rfl
      · rw [List.append_assoc]
        exact begun.append inOrder (Nat.le_refl _) (Nat.le_refl _) (Nat.succ_le_succ forth)
  · simp only [if_neg many]
    exact h

theorem sees_itemsUntil {stop : Parser Bool} {item : Parser α}
    (look : Sees tokens false slack n stop) (h : Sees tokens false slack n item) (bound : Nat) :
    Sees tokens false slack n (itemsUntil stop item bound) := by
  induction bound with
  | zero => exact .pure []
  | succ bound ih =>
    exact sees_test look (.pure []) (h.bind fun next => ih.bind fun others => .pure _)

/-- Where a rule gives up, its error is noticed, and reading resumes there or further on. -/
theorem sees_recovering {x : Parser α} (h : Sees tokens strict true n x) :
    Sees tokens false true n (recovering x) := by
  intro p s cursor few
  have seen := h p s cursor few
  cases run : x s with
  | ok a s' =>
    rw [run] at seen
    rw [recovering_ok run]
    exact seen.weaken nofun
  | error e s' =>
    rw [run] at seen
    obtain ⟨q, xs, cursor', forth, recorded, inOrder⟩ := seen
    -- the error comes last, and is about the token at which the parser has given up
    rw [recovering_error run]
    let after : State := { s' with rest := resume s'.rest, recorded := s'.recorded ++ [e] }
    have ahead : after.rest <:+ s'.rest := resume_suffix s'.rest
    obtain ⟨q', resumed, same⟩ := cursor'.ahead ahead
    have shorter := ahead.length_le
    have further : q ≤ q' := by omega
    refine ⟨q', xs ++ [⟨e, q, q⟩], resumed, Nat.le_trans forth further, nofun, ?_, ?_⟩
    · show s'.recorded ++ [e] = _
      rw [recorded, List.map_append, List.append_assoc]
      rfl
    · exact inOrder.widen (Nat.le_refl _) (Nat.succ_le_succ further)

end Lox.Grammar
