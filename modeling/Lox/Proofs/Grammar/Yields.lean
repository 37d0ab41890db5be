import Lox.Proofs.Grammar.Runs

/-! # Runs whatever the tokens

  `Reads` and `Takes` speak of runs without errors. Here a run may record errors, give up and
  resume: what can be said of it is which tokens it leaves, that it does not lower the
  counter of identities, and what holds of its result (`Yields`).
-/

namespace Lox.Grammar

variable {α β : Type} {T : Token → Prop}

/-! ### Runs that keep the tokens and raise the counter -/

/-- All tokens of a state have a property. -/
def Supplied (T : Token → Prop) (s : State) : Prop :=
  ∀ t ∈ s.rest, T t

/-- A run, however it ends, leaves only tokens that were there before and does not lower the
    counter; and `P` holds of the counter before, the result and the counter after. -/
structure Yields (T : Token → Prop) (p : Parser α) (P : Nat → α → Nat → Prop) :
    Prop where
  supplied : ∀ s, Supplied T s → Supplied T (finalState (p s))
  raises : ∀ s, Supplied T s → s.fresh ≤ (finalState (p s)).fresh
  value : ∀ {s a s'}, Supplied T s → p s = .ok a s' → P s.fresh a s'.fresh

namespace Yields

variable {p : Parser α} {P Q : Nat → α → Nat → Prop}

theorem raises_ok (h : Yields T p P) {s s' : State} {a : α} (run : p s = .ok a s')
    (supplied : Supplied T s) : s.fresh ≤ s'.fresh := by
  have raised := h.raises s supplied
  rwa [run] at raised

theorem supplied_ok (h : Yields T p P) {s s' : State} {a : α} (run : p s = .ok a s')
    (supplied : Supplied T s) : Supplied T s' := by
  have kept := h.supplied s supplied
  rwa [run] at kept

theorem weaken (h : Yields T p P) (imp : ∀ lo a hi, lo ≤ hi → P lo a hi → Q lo a hi) :
    Yields T p Q := by
  refine ⟨h.supplied, h.raises, ?_⟩
  intro s a s' supplied run
  exact imp _ _ _ (h.raises_ok run supplied) (h.value supplied run)

theorem pure {a : α} (holds : ∀ n, P n a n) : Yields T (pure a) P := by
  refine ⟨fun s supplied => supplied, fun s _ => Nat.le_refl _, ?_⟩
  intro s b s' _ run
  cases run
  exact holds s.fresh

theorem bind {f : α → Parser β} {R : α → Nat → β → Nat → Prop} (first : Yields T p P)
    (second : ∀ a, Yields T (f a) (R a)) :
    Yields T (p >>= f) fun lo b hi =>
      ∃ a mid, lo ≤ mid ∧ mid ≤ hi ∧ P lo a mid ∧ R a mid b hi := by
  refine ⟨?_, ?_, ?_⟩
  · intro s supplied
    cases run : p s with
    | ok a s' =>
      rw [bind_of_ok run]
      exact (second a).supplied s' (first.supplied_ok run supplied)
    | error e s' =>
      have kept := first.supplied s supplied
      rw [run] at kept
      rw [bind_of_error run]
      exact kept
  · intro s supplied
    cases run : p s with
    | ok a s' =>
      rw [bind_of_ok run]
      have later := (second a).raises s' (first.supplied_ok run supplied)
      exact Nat.le_trans (first.raises_ok run supplied) later
    | error e s' =>
      have raised := first.raises s supplied
      rw [run] at raised
      rw [bind_of_error run]
      exact raised
  · intro s b s'' supplied run
    obtain ⟨a, s', run₁, run₂⟩ := bind_eq_ok run
    have supplied' := first.supplied_ok run₁ supplied
    exact ⟨a, s'.fresh, first.raises_ok run₁ supplied, (second a).raises_ok run₂ supplied',
      first.value supplied run₁, (second a).value supplied' run₂⟩

theorem pure_eq (a : α) : Yields T (Pure.pure a) fun lo b hi => lo = hi ∧ b = a :=
  pure fun _ => ⟨rfl, rfl⟩

theorem map (h : Yields T p P) (g : α → β) :
    Yields T (g <$> p) fun lo b hi => ∃ a, P lo a hi ∧ b = g a := by
  rw [map_eq_bind]
  apply (h.bind fun a => pure_eq (g a)).weaken
  intro lo b hi _ both
  obtain ⟨a, mid, _, _, holds, rfl, rfl⟩ := both
  exact ⟨a, holds, rfl⟩

end Yields

/-! ### The basic parsers -/

theorem yields_still {p : Parser α} {g : State → α} (h : ∀ s, p s = .ok (g s) s) :
    Yields T p fun lo _ hi => lo = hi := by
  refine ⟨?_, ?_, ?_⟩
  · intro s supplied
    rw [h s]
    exact supplied
  · intro s _
    rw [h s]
    exact Nat.le_refl _
  · intro s a s' _ run
    rw [h s] at run
    cases run
    rfl

theorem yields_remaining : Yields T remaining fun lo _ hi => lo = hi :=
  yields_still fun _ => rfl

theorem yields_atEnd : Yields T atEnd fun lo _ hi => lo = hi :=
  yields_still fun _ => rfl

theorem yields_nextIs (kind : TokenKind) : Yields T (nextIs kind) fun lo _ hi => lo = hi :=
  yields_still fun _ => rfl

theorem yields_atBodyEnd : Yields T atBodyEnd fun lo _ hi => lo = hi := by
  apply yields_still (g := fun s =>
    s.rest.isEmpty || s.rest.head?.any (·.kind.agrees (.punctuator .rightBrace)))
  intro s
  rfl

theorem yields_reject (cause : Cause) : Yields T (reject cause : Parser α) fun _ _ _ => False :=
  ⟨fun _ supplied => supplied, fun _ _ => Nat.le_refl _, fun _ run => nomatch run⟩

theorem yields_record (error : SyntaxError) : Yields T (record error) fun _ _ _ => True :=
  ⟨fun _ supplied => supplied, fun _ _ => Nat.le_refl _, fun _ _ => trivial⟩

theorem yields_recordHere (cause : Cause) : Yields T (recordHere cause) fun _ _ _ => True :=
  ⟨fun _ supplied => supplied, fun _ _ => Nat.le_refl _, fun _ _ => trivial⟩

theorem yields_freshNode : Yields T freshNode fun lo n hi => n = lo ∧ hi = lo + 1 := by
  refine ⟨fun _ supplied => supplied, fun s _ => Nat.le_succ _, ?_⟩
  intro s n s' _ run
  cases run
  exact ⟨rfl, rfl⟩

theorem yields_select {rule? : Token → Option (Parser α)} {otherwise : Parser α}
    {P : Nat → α → Nat → Prop}
    (chosen : ∀ token rule, T token → rule? token = some rule → Yields T rule P)
    (other : Yields T otherwise P) : Yields T (select rule? otherwise) P := by
  -- the run of the chosen rule, or of the other one
  have run : ∀ s, Supplied T s → ∃ (q : Parser α) (s' : State), Yields T q P ∧
      Supplied T s' ∧ s'.fresh = s.fresh ∧ select rule? otherwise s = q s' := by
    intro s supplied
    unfold select
    cases hrest : s.rest with
    | nil => exact ⟨otherwise, s, other, supplied, rfl, rfl⟩
    | cons token rest =>
      have hsupplied : ∀ t ∈ token :: rest, T t := hrest ▸ supplied
      have htoken := hsupplied token (List.mem_cons_self ..)
      cases hrule : rule? token with
      | none =>
        refine ⟨otherwise, s, other, supplied, rfl, ?_⟩
        simp only [hrule]
      | some rule =>
        refine ⟨rule, { s with rest := rest }, chosen token rule htoken hrule,
          fun t ht => hsupplied t (List.mem_cons_of_mem token ht), rfl, ?_⟩
        simp only [hrule]
  refine ⟨?_, ?_, ?_⟩
  · intro s supplied
    obtain ⟨q, s', hq, supplied', _, eq⟩ := run s supplied
    rw [eq]
    exact hq.supplied s' supplied'
  · intro s supplied
    obtain ⟨q, s', hq, supplied', same, eq⟩ := run s supplied
    rw [eq, ← same]
    exact hq.raises s' supplied'
  · intro s a s'' supplied result
    obtain ⟨q, s', hq, supplied', same, eq⟩ := run s supplied
    rw [eq] at result
    rw [← same]
    exact hq.value supplied' result

/-- What is known of a token that was taken. -/
def Taken (T : Token → Prop) (kind : TokenKind) (t : Token) : Prop :=
  T t ∧ t.kind.agrees kind = true

theorem yields_expect (kind : TokenKind) (cause : Cause) :
    Yields T (expect kind cause) fun _ t _ => Taken T kind t := by
  apply yields_select
  · intro token rule htoken chosen
    split at chosen
    · next agrees =>
      cases chosen
      exact .pure fun _ => ⟨htoken, agrees⟩
    · cases chosen
  · exact (yields_reject cause).weaken fun _ _ _ _ no => no.elim

theorem yields_accept?_bind {kind : TokenKind} {f : Option Token → Parser β}
    {P : Nat → β → Nat → Prop} (absent : Yields T (f none) P)
    (present : ∀ t, Taken T kind t → Yields T (f (some t)) P) :
    Yields T (accept? kind >>= f) P := by
  rw [accept?_bind]
  apply yields_select _ absent
  intro token rule htoken chosen
  split at chosen
  · next agrees =>
    cases chosen
    exact present token ⟨htoken, agrees⟩
  · cases chosen

/-! ### Lists -/

/-- Items that were read one after another. -/
inductive Chained (P : Nat → α → Nat → Prop) : Nat → List α → Nat → Prop where
  | nil {lo hi : Nat} : lo ≤ hi → Chained P lo [] hi
  | cons {lo lo' mid hi : Nat} {a : α} {as : List α} :
      lo ≤ lo' → lo' ≤ mid → P lo' a mid → Chained P mid as hi → Chained P lo (a :: as) hi

namespace Chained

variable {P : Nat → α → Nat → Prop} {lo hi : Nat} {as : List α}

theorem le (h : Chained P lo as hi) : lo ≤ hi := by
  induction h with
  | nil le => exact le
  | cons below le _ _ ih => omega

theorem widen {lo' hi' : Nat} (h : Chained P lo as hi) (below : lo' ≤ lo)
    (above : hi ≤ hi') : Chained P lo' as hi' := by
  induction h generalizing lo' with
  | nil le => exact .nil (by omega)
  | cons below' le made _ ih => exact .cons (by omega) le made (ih (Nat.le_refl _) above)

theorem mem (h : Chained P lo as hi) : ∀ a ∈ as, ∃ lo' hi', P lo' a hi' := by
  induction h with
  | nil _ => exact fun _ ha => nomatch ha
  | cons _ _ made _ ih =>
    intro a ha
    rcases List.mem_cons.mp ha with rfl | ha
    · exact ⟨_, _, made⟩
    · exact ih a ha

/-- The items that are there, among those that may be absent. -/
theorem filterMap {os : List (Option α)}
    (h : Chained (fun lo o hi => ∀ a, o = some a → P lo a hi) lo os hi) :
    Chained P lo (os.filterMap id) hi := by
  induction h with
  | nil le => exact .nil le
  | @cons lo lo' mid hi o os below le made _ ih =>
    cases o with
    | none => exact ih.widen (by omega) (Nat.le_refl _)
    | some a => exact .cons below le (made a rfl) ih

end Chained

theorem yields_nil {P : Nat → α → Nat → Prop} :
    Yields T (pure [] : Parser (List α)) (Chained P) :=
  .pure fun _ => .nil (Nat.le_refl _)

/-- One item and then others. -/
theorem yields_cons {P : Nat → α → Nat → Prop} {first : Parser α}
    {others : Parser (List α)} (h : Yields T first P) (hs : Yields T others (Chained P)) :
    Yields T (do
      let a ← first
      let as ← others
      return a :: as) (Chained P) := by
  apply (h.bind fun a => hs.bind fun as => .pure_eq (a :: as)).weaken
  intro lo bs hi _ found
  obtain ⟨a, mid, le, _, ha, as, mid', _, _, has, rfl, rfl⟩ := found
  exact .cons (Nat.le_refl _) le ha has

/-- An item that may be one too many. -/
theorem yields_limited {item : Parser α} {P : Nat → α → Nat → Prop} (h : Yields T item P)
    (lower : ∀ {lo mid a hi}, lo ≤ mid → P mid a hi → P lo a hi) (cause : Cause) (count : Nat) :
    Yields T (do
      if maxArity ≤ count then
        recordHere cause
      item) P := by
  by_cases many : maxArity ≤ count
  · rw [if_pos many]
    apply ((yields_recordHere cause).bind fun _ => h).weaken
    intro lo a hi _ made
    obtain ⟨_, mid, below, _, _, made⟩ := made
    exact lower below made
  · rw [if_neg many]
    exact h

theorem yields_moreItems {item : Nat → Parser α} {P : Nat → α → Nat → Prop}
    (h : ∀ n, Yields T (item n) P) (bound count : Nat) :
    Yields T (moreItems item bound count) (Chained P) := by
  induction bound generalizing count with
  | zero => exact yields_nil
  | succ bound ih =>
    apply yields_accept?_bind
    · exact yields_nil
    · intro t _
      exact yields_cons (h count) (ih (count + 1))

theorem yields_commaSeparated {item : Nat → Parser α} {P : Nat → α → Nat → Prop}
    (h : ∀ n, Yields T (item n) P) : Yields T (commaSeparated item) (Chained P) := by
  apply ((h 0).bind fun a => yields_remaining.bind fun bound =>
    (yields_moreItems h bound 1).bind fun as => .pure_eq (a :: as)).weaken
  intro lo bs hi _ found
  obtain ⟨a, mid, le, _, ha, _, _, _, _, rfl, as, _, _, _, has, rfl, rfl⟩ := found
  exact .cons (Nat.le_refl _) le ha has

/-- A parser that first looks whether to go on. -/
theorem yields_test {test : Parser Bool} {yes no : Parser α}
    {P : Nat → α → Nat → Prop} (look : Yields T test fun lo _ hi => lo = hi)
    (hyes : Yields T yes P) (hno : Yields T no P) :
    Yields T (do if ← test then yes else no) P := by
  have branches : ∀ found : Bool, Yields T (if found = true then yes else no) P := by
    intro found
    by_cases h : found = true
    · rw [if_pos h]
      exact hyes
    · rw [if_neg h]
      exact hno
  apply (look.bind branches).weaken
  intro lo a hi _ both
  obtain ⟨_, _, _, _, rfl, holds⟩ := both
  exact holds

theorem yields_itemsBeforeParen {item : Nat → Parser α} {P : Nat → α → Nat → Prop}
    (h : ∀ n, Yields T (item n) P) : Yields T (itemsBeforeParen item) (Chained P) :=
  yields_test (yields_nextIs _) yields_nil (yields_commaSeparated h)

theorem yields_itemsUntil {stop : Parser Bool} {item : Parser α}
    {P : Nat → α → Nat → Prop} (look : Yields T stop fun lo _ hi => lo = hi)
    (h : Yields T item P) (bound : Nat) :
    Yields T (itemsUntil stop item bound) (Chained P) := by
  induction bound with
  | zero => exact yields_nil
  | succ bound ih => exact yields_test look yields_nil (yields_cons h ih)

theorem yields_introducedBy {kind : TokenKind} {rule : Parser α}
    {P : Nat → α → Nat → Prop} (h : Yields T rule P) :
    Yields T (introducedBy kind rule) fun lo o hi =>
      o = none ∨ ∃ a, o = some a ∧ P lo a hi := by
  apply yields_accept?_bind
  · exact .pure fun _ => .inl rfl
  · intro t _
    apply (h.map some).weaken
    intro lo o hi _ made
    obtain ⟨a, ha, rfl⟩ := made
    exact .inr ⟨a, rfl, ha⟩

theorem resume_subset : ∀ tokens : List Token, ∀ t ∈ resume tokens, t ∈ tokens
  | [], t, h => nomatch h
  | [_], t, h => nomatch h
  | token :: next :: rest, t, h => by
    rw [resume] at h
    split at h
    · exact List.mem_cons_of_mem token h
    · exact List.mem_cons_of_mem token (resume_subset (next :: rest) t h)

theorem yields_recovering {rule : Parser α} {P : Nat → α → Nat → Prop}
    (h : Yields T rule P) :
    Yields T (recovering rule) fun lo o hi => ∀ a, o = some a → P lo a hi := by
  refine ⟨?_, ?_, ?_⟩
  · intro s supplied
    have kept := h.supplied s supplied
    unfold recovering
    cases run : rule s with
    | ok a s' =>
      rw [run] at kept
      exact kept
    | error e s' =>
      -- tokens are skipped after an error, and none are added
      rw [run] at kept
      exact fun t ht => kept t (resume_subset s'.rest t ht)
  · intro s supplied
    have raised := h.raises s supplied
    unfold recovering
    cases run : rule s with
    | ok a s' =>
      rw [run] at raised
      exact raised
    | error e s' =>
      rw [run] at raised
      exact raised
  · intro s o s'' supplied run a ho
    unfold recovering at run
    cases result : rule s with
    | ok b s' =>
      rw [result] at run
      cases run
      cases ho
      exact h.value supplied result
    | error e s' =>
      rw [result] at run
      cases run
      cases ho

end Lox.Grammar
