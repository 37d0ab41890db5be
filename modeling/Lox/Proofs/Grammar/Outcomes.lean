import Lox.Proofs.Grammar.Runs

/-! # What runs yield, with errors or without

  `Gives clean p P` says that whatever `p` yields satisfies `P`, also where errors were recorded
  or something was given up and read past on the way. Here `clean` stands for any condition
  under which no error is recorded by the end of the run. Errors are never taken back, so that
  under the same condition none is recorded before or in the middle of it; this is how `P` can
  say more of results that were read without errors.

  There is one rule for every way of putting parsers together. Nothing is asked of the tokens.
-/

namespace Lox.Grammar

variable {α β : Type} {clean : Prop}

/-- What a run yields satisfies `P`, if no error is recorded at its end in case of `clean`; and
    then none is recorded at its beginning in that case. -/
structure Gives (clean : Prop) (p : Parser α) (P : α → Prop) : Prop where
  ends : ∀ {s a s'}, p s = .ok a s' → (clean → s'.recorded = []) →
    (clean → s.recorded = []) ∧ P a

namespace Gives

variable {p : Parser α} {P Q : α → Prop}

theorem weaken (h : Gives clean p P) (imp : ∀ a, P a → Q a) : Gives clean p Q := by
  refine ⟨fun run none => ?_⟩
  obtain ⟨before, holds⟩ := h.ends run none
  exact ⟨before, imp _ holds⟩

theorem pure {a : α} (holds : P a) : Gives clean (pure a) P := by
  refine ⟨fun run none => ?_⟩
  cases run
  exact ⟨none, holds⟩

/-- The second parser starts where the first one ends, and may count on what that one gives. -/
theorem bind {f : α → Parser β} {R : β → Prop} (first : Gives clean p P)
    (second : ∀ a, Gives clean (f a) fun b => P a → R b) : Gives clean (p >>= f) R := by
  refine ⟨fun run none => ?_⟩
  obtain ⟨a, s', run₁, run₂⟩ := bind_eq_ok run
  obtain ⟨between, holds⟩ := (second a).ends run₂ none
  obtain ⟨before, known⟩ := first.ends run₁ between
  exact ⟨before, holds known⟩

/-- A first parser whose result does not matter. -/
theorem follow {f : α → Parser β} {R : β → Prop} (first : Gives clean p P)
    (second : ∀ a, Gives clean (f a) R) : Gives clean (p >>= f) R :=
  first.bind fun a => (second a).weaken fun _ holds _ => holds

theorem map {g : α → β} {R : β → Prop} (h : Gives clean p P) (imp : ∀ a, P a → R (g a)) :
    Gives clean (g <$> p) R := by
  rw [map_eq_bind]
  exact h.bind fun a => .pure (imp a)

/-- A parser that leaves the errors alone. -/
theorem of_still {g : State → α} {k : State → State} (run : ∀ s, p s = .ok (g s) (k s))
    (recorded : ∀ s, (k s).recorded = s.recorded) : Gives clean p fun _ => True := by
  refine ⟨fun {s _ _} run' none => ?_⟩
  rw [run s] at run'
  cases run'
  rw [recorded s] at none
  exact ⟨none, trivial⟩

end Gives

/-! ### The basic parsers -/

theorem gives_remaining : Gives clean remaining fun _ => True :=
  .of_still (fun _ => rfl) fun _ => rfl

theorem gives_nextIs (kind : TokenKind) : Gives clean (nextIs kind) fun _ => True :=
  .of_still (fun _ => rfl) fun _ => rfl

theorem gives_atEnd : Gives clean atEnd fun _ => True :=
  .of_still (fun _ => rfl) fun _ => rfl

theorem gives_atBodyEnd : Gives clean atBodyEnd fun _ => True :=
  gives_atEnd.follow fun _ => (gives_nextIs _).follow fun _ => .pure trivial

theorem gives_freshNode : Gives clean freshNode fun _ => True :=
  .of_still (fun _ => rfl) fun _ => rfl

theorem gives_reject {P : α → Prop} (cause : Cause) : Gives clean (reject cause) P :=
  ⟨fun run => nomatch run⟩

/-- Where an error is recorded, there is no end without one. -/
theorem gives_record (error : SyntaxError) : Gives clean (record error) fun _ => ¬clean := by
  refine ⟨fun run none => ?_⟩
  cases run
  have never : ¬clean := fun is => by simpa using none is
  exact ⟨fun is => absurd is never, never⟩

theorem gives_recordHere (cause : Cause) : Gives clean (recordHere cause) fun _ => ¬clean :=
  ⟨fun {s _ _} run none => (gives_record ⟨s.rest.head?, cause⟩).ends run none⟩

theorem gives_select {rule? : Token → Option (Parser α)} {otherwise : Parser α} {P : α → Prop}
    (chosen : ∀ token, ∀ rule ∈ rule? token, Gives clean rule P)
    (other : Gives clean otherwise P) : Gives clean (select rule? otherwise) P := by
  refine ⟨fun run none => ?_⟩
  unfold select at run
  split at run
  · exact other.ends run none
  · next token rest _ =>
    split at run
    · next rule choice =>
      -- the token that chose the rule is gone, and the errors are the same
      obtain ⟨before, holds⟩ := (chosen token rule choice).ends run none
      exact ⟨before, holds⟩
    · exact other.ends run none

theorem gives_selectIf {test : Token → Prop} [DecidablePred test] {f : Token → Parser α}
    {otherwise : Parser α} {P : α → Prop} (chosen : ∀ token, test token → Gives clean (f token) P)
    (other : Gives clean otherwise P) :
    Gives clean (select (fun token => if test token then some (f token) else none) otherwise)
      P := by
  apply gives_select _ other
  intro token rule choice
  by_cases fits : test token
  · simp only [fits, if_true, Option.mem_some_iff] at choice
    exact choice ▸ chosen token fits
  · simp only [fits, if_false] at choice
    cases choice

theorem gives_expect (kind : TokenKind) (cause : Cause) :
    Gives clean (expect kind cause) fun _ => True :=
  gives_selectIf (fun _ _ => .pure trivial) (gives_reject cause)

theorem gives_accept?_bind {kind : TokenKind} {f : Option Token → Parser β} {P : β → Prop}
    (absent : Gives clean (f none) P) (present : ∀ t, Gives clean (f (some t)) P) :
    Gives clean (accept? kind >>= f) P := by
  rw [accept?_bind]
  exact gives_selectIf (fun t _ => present t) absent

theorem gives_introducedBy {kind : TokenKind} {rule : Parser α} {P : α → Prop}
    (h : Gives clean rule P) : Gives clean (introducedBy kind rule) fun o => ∀ a ∈ o, P a := by
  apply gives_accept?_bind
  · exact .pure nofun
  · intro _
    exact h.map fun a holds => by simpa using holds

theorem gives_test {test : Parser Bool} {yes no : Parser α} {P : α → Prop}
    (look : Gives clean test fun _ => True) (hyes : Gives clean yes P)
    (hno : Gives clean no P) : Gives clean (do if ← test then yes else no) P := by
  apply look.follow
  intro found
  by_cases h : found = true
  · rw [if_pos h]
    exact hyes
  · rw [if_neg h]
    exact hno

/-- What is given up on leaves an error behind and yields nothing. -/
theorem gives_recovering {rule : Parser α} {P : α → Prop} (h : Gives clean rule P) :
    Gives clean (recovering rule) fun o => ∀ a ∈ o, P a := by
  refine ⟨fun {s _ _} run none => ?_⟩
  unfold recovering at run
  cases result : rule s with
  | ok a s'' =>
    rw [result] at run
    cases run
    obtain ⟨before, holds⟩ := h.ends result none
    exact ⟨before, by simpa using holds⟩
  | error e s'' =>
    rw [result] at run
    cases run
    exact ⟨fun is => by simpa using none is, nofun⟩

/-! ### Repetitions -/

/-- One item and then others. -/
theorem gives_cons {item : Parser α} {others : Parser (List α)} {P : α → Prop}
    (h : Gives clean item P) (hs : Gives clean others fun as => ∀ a ∈ as, P a) :
    Gives clean (do
      let a ← item
      let as ← others
      return a :: as) fun as => ∀ a ∈ as, P a :=
  h.bind fun _ => hs.bind fun _ => .pure fun all holds => List.forall_mem_cons.mpr ⟨holds, all⟩

theorem gives_itemsUntil {stop : Parser Bool} {item : Parser α} {P : α → Prop}
    (look : Gives clean stop fun _ => True) (h : Gives clean item P) (bound : Nat) :
    Gives clean (itemsUntil stop item bound) fun as => ∀ a ∈ as, P a := by
  induction bound with
  | zero => exact .pure nofun
  | succ bound ih => exact gives_test look (.pure nofun) (gives_cons h ih)

/-- An item that may be one too many: without errors it is not. -/
theorem gives_limited {item : Parser α} {P : α → Prop} (h : Gives clean item P) (cause : Cause)
    (count : Nat) :
    Gives clean (do
      if maxArity ≤ count then
        recordHere cause
      item) fun a => (clean → count < maxArity) ∧ P a := by
  by_cases many : maxArity ≤ count
  · rw [if_pos many]
    apply (gives_recordHere cause).bind
    intro _
    exact h.weaken fun a holds never => ⟨fun is => absurd is never, holds⟩
  · rw [if_neg many]
    exact h.weaken fun a holds => ⟨fun _ => Nat.lt_of_not_le many, holds⟩

section

variable {item : Nat → Parser α} {P : α → Prop}
  (h : ∀ count, Gives clean (item count) fun a => (clean → count < maxArity) ∧ P a)
include h

/-- An item that so many precede is read without errors only if there may be one more. -/
theorem gives_moreItems (bound count : Nat) :
    Gives clean (moreItems item bound count) fun as =>
      (clean → count ≤ maxArity → count + as.length ≤ maxArity) ∧ ∀ a ∈ as, P a := by
  induction bound generalizing count with
  | zero => exact .pure ⟨fun _ few => few, nofun⟩
  | succ bound ih =>
    apply gives_accept?_bind
    · exact .pure ⟨fun _ few => few, nofun⟩
    · intro _
      apply (h count).bind
      intro next
      apply (ih (count + 1)).bind
      intro others
      refine .pure fun more one => ⟨fun is _ => ?_, List.forall_mem_cons.mpr ⟨one.2, more.2⟩⟩
      have := more.1 is (one.1 is)
      rw [List.length_cons]
      omega

theorem gives_commaSeparated :
    Gives clean (commaSeparated item) fun as =>
      (clean → as.length ≤ maxArity) ∧ ∀ a ∈ as, P a := by
  apply (h 0).bind
  intro first
  apply gives_remaining.follow
  intro bound
  apply (gives_moreItems h bound 1).bind
  intro others
  refine .pure fun more one => ⟨fun is => ?_, List.forall_mem_cons.mpr ⟨one.2, more.2⟩⟩
  have := more.1 is (one.1 is)
  rw [List.length_cons]
  omega

theorem gives_itemsBeforeParen :
    Gives clean (itemsBeforeParen item) fun as =>
      (clean → as.length ≤ maxArity) ∧ ∀ a ∈ as, P a :=
  gives_test (gives_nextIs _) (.pure ⟨fun _ => Nat.zero_le _, nofun⟩) (gives_commaSeparated h)

end

end Lox.Grammar
