import Mathlib.Data.List.Forall2
import Lox.Grammar.Reading

/-! # Runs of parsers

  Two judgements about parsers, each with one rule for every way of putting parsers together.

  - `Reads p P` looks at runs from behind: if a run of `p` succeeds and records no error, the
    tokens it took and its result satisfy `P`. Whatever happens, errors that were recorded
    stay recorded.
  - `Takes p w rest P` looks at runs from before: on the tokens `w` followed by `rest`, `p`
    succeeds, takes exactly `w`, records nothing and yields a result that satisfies `P`.
-/

namespace Lox.Grammar

variable {α β : Type}

/-! ### One parser after another -/

/-- The state in which a run ends, however it ends. -/
def finalState : EStateM.Result SyntaxError State α → State
  | .ok _ s => s
  | .error _ s => s

theorem bind_of_ok {p : Parser α} {f : α → Parser β} {s s' : State} {a : α}
    (h : p s = .ok a s') : (p >>= f) s = f a s' := by
  show EStateM.bind p f s = f a s'
  rw [EStateM.bind, h]

theorem bind_of_error {p : Parser α} {f : α → Parser β} {s s' : State} {e : SyntaxError}
    (h : p s = .error e s') : (p >>= f) s = .error e s' := by
  show EStateM.bind p f s = .error e s'
  rw [EStateM.bind, h]

/-- A run of two parsers that succeeds is a successful run of each. -/
theorem bind_eq_ok {p : Parser α} {f : α → Parser β} {s s'' : State} {b : β}
    (h : (p >>= f) s = .ok b s'') : ∃ a s', p s = .ok a s' ∧ f a s' = .ok b s'' := by
  cases hp : p s with
  | ok a s' =>
    rw [bind_of_ok hp] at h
    exact ⟨a, s', rfl, h⟩
  | error e s' =>
    rw [bind_of_error hp] at h
    cases h

theorem map_eq_bind (g : α → β) (p : Parser α) : g <$> p = p >>= fun a => pure (g a) := by
  funext s
  show EStateM.map g p s = EStateM.bind p _ s
  rw [EStateM.map, EStateM.bind]
  cases p s <;> rfl

/-! ### What a quiet run has read -/

/-- A run never forgets a recorded error; and a run that succeeds and records none has taken
    tokens that satisfy `P` together with its result. -/
structure Reads (p : Parser α) (P : List Token → α → Prop) : Prop where
  /-- Recorded errors stay. -/
  keeps : ∀ s, s.recorded <+: (finalState (p s)).recorded
  /-- What a successful run without errors has taken and yields. -/
  takes : ∀ {s a s'}, p s = .ok a s' → s'.recorded = s.recorded →
    ∃ w, s.rest = w ++ s'.rest ∧ P w a

namespace Reads

variable {p : Parser α} {P Q : List Token → α → Prop}

theorem keeps_ok (h : Reads p P) {s s' : State} {a : α} (run : p s = .ok a s') :
    s.recorded <+: s'.recorded := by
  have kept := h.keeps s
  rwa [run] at kept

theorem keeps_error (h : Reads p P) {s s' : State} {e : SyntaxError}
    (run : p s = .error e s') : s.recorded <+: s'.recorded := by
  have kept := h.keeps s
  rwa [run] at kept

theorem weaken (h : Reads p P) (imp : ∀ w a, P w a → Q w a) : Reads p Q := by
  refine ⟨h.keeps, ?_⟩
  intro s a s' run quiet
  obtain ⟨w, split, holds⟩ := h.takes run quiet
  exact ⟨w, split, imp w a holds⟩

theorem pure (a : α) : Reads (pure a) fun w b => w = [] ∧ b = a := by
  refine ⟨fun s => List.prefix_refl _, ?_⟩
  intro s b s' run _
  cases run
  exact ⟨[], rfl, rfl, rfl⟩

/-- The tokens of two parsers stand one after the other. -/
theorem bind {f : α → Parser β} {R : α → List Token → β → Prop} (first : Reads p P)
    (second : ∀ a, Reads (f a) (R a)) :
    Reads (p >>= f) fun w b => ∃ u v a, w = u ++ v ∧ P u a ∧ R a v b := by
  constructor
  · intro s
    cases hp : p s with
    | ok a s' =>
      rw [bind_of_ok hp]
      exact (first.keeps_ok hp).trans ((second a).keeps s')
    | error e s' =>
      rw [bind_of_error hp]
      exact first.keeps_error hp
  · intro s b s'' run quiet
    obtain ⟨a, s', hp, hf⟩ := bind_eq_ok run
    -- nothing new at the end, so nothing new in between
    have before := first.keeps_ok hp
    have after := (second a).keeps_ok hf
    have quiet₁ : s'.recorded = s.recorded :=
      (before.eq_of_length_le (quiet ▸ after).length_le).symm
    obtain ⟨u, hu, holds₁⟩ := first.takes hp quiet₁
    obtain ⟨v, hv, holds₂⟩ := (second a).takes hf (quiet.trans quiet₁.symm)
    exact ⟨u ++ v, by rw [hu, hv, List.append_assoc], u, v, a, rfl, holds₁, holds₂⟩

theorem map (h : Reads p P) (g : α → β) :
    Reads (g <$> p) fun w b => ∃ a, P w a ∧ b = g a := by
  rw [map_eq_bind]
  refine (h.bind fun a => Reads.pure (g a)).weaken ?_
  intro w b h
  obtain ⟨u, v, a, rfl, holds, rfl, rfl⟩ := h
  exact ⟨a, by simpa using holds, rfl⟩

end Reads

/-! ### Reading with the basic parsers -/

/-- A parser that leaves the state alone reads nothing. -/
theorem Reads.of_still {p : Parser α} {g : State → α} (h : ∀ s, p s = .ok (g s) s) :
    Reads p fun w _ => w = [] := by
  constructor
  · intro s
    rw [h s]
    exact List.prefix_refl _
  · intro s a s' run _
    rw [h s] at run
    cases run
    exact ⟨[], rfl, rfl⟩

theorem reads_remaining : Reads remaining fun w _ => w = [] :=
  .of_still fun _ => rfl

theorem reads_atEnd : Reads atEnd fun w _ => w = [] :=
  .of_still fun _ => rfl

theorem reads_nextIs (kind : TokenKind) : Reads (nextIs kind) fun w _ => w = [] :=
  .of_still fun _ => rfl

theorem reads_freshNode : Reads freshNode fun w _ => w = [] := by
  refine ⟨fun s => List.prefix_refl _, ?_⟩
  intro s a s' run _
  cases run
  exact ⟨[], rfl, rfl⟩

theorem reads_reject (cause : Cause) : Reads (reject cause : Parser α) fun _ _ => False := by
  refine ⟨fun s => List.prefix_refl _, ?_⟩
  intro s a s' run _
  cases run

theorem reads_record (error : SyntaxError) : Reads (record error) fun _ _ => False := by
  refine ⟨fun s => List.prefix_append _ _, ?_⟩
  intro s a s' run quiet
  cases run
  exact absurd quiet (by simp)

theorem reads_recordHere (cause : Cause) : Reads (recordHere cause) fun _ _ => False := by
  refine ⟨fun s => List.prefix_append _ _, ?_⟩
  intro s a s' run quiet
  cases run
  exact absurd quiet (by simp)

/-- Either the chosen rule reads what follows its token, or nothing was taken for the
    choice. -/
theorem reads_select {rule? : Token → Option (Parser α)} {otherwise : Parser α}
    {P : List Token → α → Prop}
    (chosen : ∀ token rule, rule? token = some rule →
      Reads rule fun w a => P (token :: w) a)
    (other : Reads otherwise P) : Reads (select rule? otherwise) P := by
  constructor
  · intro s
    unfold select
    split
    · exact other.keeps s
    · next token rest _ =>
      split
      · next rule hrule => exact (chosen token rule hrule).keeps { s with rest := rest }
      · exact other.keeps s
  · intro s a s' run quiet
    unfold select at run
    split at run
    · exact other.takes run quiet
    · next token rest hrest =>
      split at run
      · -- the token that chose the rule is taken before the rule runs
        next rule hrule =>
        obtain ⟨w, hw, holds⟩ := (chosen token rule hrule).takes run quiet
        exact ⟨token :: w, by rw [hrest]; exact congrArg _ hw, holds⟩
      · exact other.takes run quiet

theorem reads_expect (kind : TokenKind) (cause : Cause) :
    Reads (expect kind cause) fun w t => w = [t] ∧ t.kind.agrees kind = true := by
  refine reads_select ?_ ((reads_reject cause).weaken fun _ _ h => h.elim)
  intro token rule chosen
  split at chosen
  · next agrees =>
    cases chosen
    refine (Reads.pure token).weaken ?_
    intro w t h
    obtain ⟨rfl, rfl⟩ := h
    exact ⟨rfl, agrees⟩
  · cases chosen

/-- Looking for an optional token and going on is a choice between two ways of going on. -/
theorem accept?_bind (kind : TokenKind) (f : Option Token → Parser β) :
    (accept? kind >>= f) =
      select (fun t => if t.kind.agrees kind then some (f (some t)) else none) (f none) := by
  funext s
  show EStateM.bind (accept? kind) f s = _
  unfold EStateM.bind accept? select
  cases s.rest with
  | nil => rfl
  | cons t rest =>
    by_cases agrees : t.kind.agrees kind = true
    · simp only [agrees, if_true]
      rfl
    · simp only [agrees]
      rfl

theorem reads_accept?_bind {kind : TokenKind} {f : Option Token → Parser β}
    {P : List Token → β → Prop} (absent : Reads (f none) P)
    (present : ∀ t, t.kind.agrees kind = true → Reads (f (some t)) fun w b => P (t :: w) b) :
    Reads (accept? kind >>= f) P := by
  rw [accept?_bind]
  refine reads_select ?_ absent
  intro token rule chosen
  split at chosen
  · next agrees =>
    cases chosen
    exact present token agrees
  · cases chosen

/-! ### Lists with commas -/

/-- Items with a comma between each and the next. -/
inductive Separated (P : List Token → α → Prop) : List Token → List α → Prop where
  /-- One item. -/
  | single {w : List Token} {a : α} : P w a → Separated P w [a]
  /-- An item, a comma and further items. -/
  | cons {w v : List Token} {a : α} {as : List α} {comma : Token} :
      P w a → comma.kind = .punctuator .comma → Separated P v as →
      Separated P (w ++ comma :: v) (a :: as)

@[simp] theorem not_separated_nil {P : List Token → α → Prop} {w : List Token} :
    ¬ Separated P w [] := by
  intro h
  cases h

/-- No item is longer than the whole list. -/
theorem Separated.short {P : List Token → α → Prop} {w : List Token} {as : List α} {n : Nat}
    (h : Separated P w as) (le : w.length ≤ n) :
    Separated (fun u a => P u a ∧ u.length ≤ n) w as := by
  induction h with
  | single ha => exact .single ⟨ha, le⟩
  | cons ha comma _ ih =>
    rw [List.length_append, List.length_cons] at le
    exact .cons ⟨ha, by omega⟩ comma (ih (by omega))

/-- An item too many is read all the same, but not quietly. -/
theorem reads_limited {item : Parser α} {P : List Token → α → Prop} (h : Reads item P)
    (cause : Cause) (count : Nat) :
    Reads (do
      if maxArity ≤ count then
        recordHere cause
      item) fun w a => count < maxArity ∧ P w a := by
  by_cases many : maxArity ≤ count
  · rw [if_pos many]
    refine ((reads_recordHere cause).bind fun _ => h).weaken ?_
    intro w a h
    obtain ⟨_, _, _, _, no, _⟩ := h
    exact no.elim
  · rw [if_neg many]
    refine ((Reads.pure ()).bind fun _ => h).weaken ?_
    intro w a h
    obtain ⟨_, v, _, rfl, ⟨rfl, rfl⟩, holds⟩ := h
    exact ⟨Nat.lt_of_not_le many, holds⟩

/-- The items after the first. An item that `count` others precede is read quietly only if
    `count` is below the limit, so the limit bounds the length of the list. -/
theorem reads_moreItems {item : Nat → Parser α} {P : List Token → α → Prop} {limit : Nat}
    (h : ∀ n, Reads (item n) fun w a => n < limit ∧ P w a) (bound count : Nat) :
    Reads (moreItems item bound count) fun w as =>
      (count ≤ limit → count + as.length ≤ limit) ∧
        ∀ u a, P u a → Separated P (u ++ w) (a :: as) := by
  -- where no item follows, the one before is the last
  have last : ∀ count, Reads (pure [] : Parser (List α)) fun w as =>
      (count ≤ limit → count + as.length ≤ limit) ∧
        ∀ u a, P u a → Separated P (u ++ w) (a :: as) := by
    intro count
    refine (Reads.pure []).weaken ?_
    intro w as h
    obtain ⟨rfl, rfl⟩ := h
    refine ⟨fun le => le, fun u a holds => ?_⟩
    rw [List.append_nil]
    exact .single holds
  induction bound generalizing count with
  | zero => exact last count
  | succ bound ih =>
    refine reads_accept?_bind (last count) fun comma agrees => ?_
    refine ((h count).bind fun next =>
      (ih (count + 1)).bind fun others => Reads.pure (next :: others)).weaken ?_
    intro w as h
    obtain ⟨u, _, a, rfl, ⟨below, ha⟩, v, _, others, rfl, ⟨short, tail⟩, rfl, rfl⟩ := h
    refine ⟨fun _ => ?_, fun u' a' holds => ?_⟩
    · have := short below
      simp only [List.length_cons]
      omega
    · have separated := tail u a ha
      rw [List.append_nil]
      exact .cons holds (TokenKind.agrees_punctuator.1 agrees) separated

theorem reads_commaSeparated {item : Nat → Parser α} {P : List Token → α → Prop}
    {limit : Nat} (h : ∀ n, Reads (item n) fun w a => n < limit ∧ P w a) :
    Reads (commaSeparated item) fun w as => as.length ≤ limit ∧ Separated P w as := by
  refine ((h 0).bind fun first => reads_remaining.bind fun bound =>
    (reads_moreItems h bound 1).bind fun others => Reads.pure (first :: others)).weaken ?_
  intro w as h
  obtain ⟨u, _, a, rfl, ⟨positive, ha⟩, _, _, _, rfl, rfl, v, _, others, rfl, ⟨short, tail⟩,
    rfl, rfl⟩ := h
  have := short positive
  refine ⟨by simp only [List.length_cons]; omega, ?_⟩
  simpa using tail u a ha

theorem reads_itemsBeforeParen {item : Nat → Parser α} {P : List Token → α → Prop}
    {limit : Nat} (h : ∀ n, Reads (item n) fun w a => n < limit ∧ P w a) :
    Reads (itemsBeforeParen item) fun w as =>
      as.length ≤ limit ∧ (as = [] ∧ w = [] ∨ Separated P w as) := by
  have branches : ∀ stop : Bool,
      Reads (if stop = true then pure [] else commaSeparated item)
        fun w as => as.length ≤ limit ∧ (as = [] ∧ w = [] ∨ Separated P w as) := by
    intro stop
    split
    · refine (Reads.pure []).weaken ?_
      intro w as h
      obtain ⟨rfl, rfl⟩ := h
      exact ⟨Nat.zero_le _, .inl ⟨rfl, rfl⟩⟩
    · exact (reads_commaSeparated h).weaken fun w as h => ⟨h.1, .inr h.2⟩
  refine ((reads_nextIs (.punctuator .rightParen)).bind branches).weaken ?_
  intro w as h
  obtain ⟨_, v, stop, rfl, rfl, holds⟩ := h
  exact holds

theorem reads_introducedBy {kind : TokenKind} {rule : Parser α} {P : List Token → α → Prop}
    (h : Reads rule P) :
    Reads (introducedBy kind rule) fun w o => w = [] ∧ o = none ∨
      ∃ t v a, w = t :: v ∧ t.kind.agrees kind = true ∧ o = some a ∧ P v a := by
  refine reads_accept?_bind ?_ fun t agrees => ?_
  · exact (Reads.pure none).weaken fun w o h => .inl h
  · refine (h.map some).weaken ?_
    intro v o holds
    obtain ⟨a, ha, rfl⟩ := holds
    exact .inr ⟨t, v, a, rfl, agrees, rfl, ha⟩

/-! ### Running forwards -/

/-- On `w` followed by `rest`, a run takes exactly `w`, records nothing and yields a result
    that satisfies `P`. -/
def Takes (p : Parser α) (w rest : List Token) (P : α → Prop) : Prop :=
  ∀ recorded fresh, ∃ a fresh',
    p ⟨w ++ rest, recorded, fresh⟩ = .ok a ⟨rest, recorded, fresh'⟩ ∧ P a

namespace Takes

variable {p : Parser α} {w rest : List Token} {P Q : α → Prop}

theorem weaken (h : Takes p w rest P) (imp : ∀ a, P a → Q a) : Takes p w rest Q := by
  intro recorded fresh
  obtain ⟨a, fresh', run, holds⟩ := h recorded fresh
  exact ⟨a, fresh', run, imp a holds⟩

theorem pure (a : α) (holds : P a) : Takes (pure a) [] rest P :=
  fun _ fresh => ⟨a, fresh, rfl, holds⟩

theorem bind {f : α → Parser β} {u v : List Token} {R : β → Prop}
    (first : Takes p u (v ++ rest) P) (second : ∀ a, P a → Takes (f a) v rest R) :
    Takes (p >>= f) (u ++ v) rest R := by
  intro recorded fresh
  obtain ⟨a, fresh₁, run, holds⟩ := first recorded fresh
  obtain ⟨b, fresh₂, run', holds'⟩ := second a holds recorded fresh₁
  refine ⟨b, fresh₂, ?_, holds'⟩
  rw [List.append_assoc, bind_of_ok run, run']

/-- A first parser that takes nothing. -/
theorem bind_still {f : α → Parser β} {R : β → Prop} (first : Takes p [] (w ++ rest) P)
    (second : ∀ a, P a → Takes (f a) w rest R) : Takes (p >>= f) w rest R :=
  bind (u := []) first second

/-- A last step that takes nothing. -/
theorem bind_last {f : α → Parser β} {R : β → Prop} (first : Takes p w rest P)
    (second : ∀ a, P a → Takes (f a) [] rest R) : Takes (p >>= f) w rest R := by
  have := bind (v := []) first second
  rwa [List.append_nil] at this

theorem map {R : β → Prop} (h : Takes p w rest P) (g : α → β) (imp : ∀ a, P a → R (g a)) :
    Takes (g <$> p) w rest R := by
  rw [map_eq_bind]
  exact h.bind_last fun a holds => pure (g a) (imp a holds)

end Takes

theorem takes_remaining (rest : List Token) :
    Takes remaining [] rest fun n => n = rest.length :=
  fun _ fresh => ⟨rest.length, fresh, rfl, rfl⟩

theorem takes_freshNode (rest : List Token) : Takes freshNode [] rest fun _ => True :=
  fun _ fresh => ⟨fresh, fresh + 1, rfl, trivial⟩

theorem takes_nextIs (kind : TokenKind) (rest : List Token) :
    Takes (nextIs kind) [] rest fun b => b = rest.head?.any (·.kind.agrees kind) :=
  fun _ fresh => ⟨_, fresh, rfl, rfl⟩

theorem takes_atEnd (rest : List Token) : Takes atEnd [] rest fun b => b = rest.isEmpty :=
  fun _ fresh => ⟨_, fresh, rfl, rfl⟩

section select

variable {rule? : Token → Option (Parser α)} {otherwise : Parser α} {P : α → Prop}

theorem takes_select {rule : Parser α} {token : Token} {w rest : List Token}
    (chosen : rule? token = some rule) (h : Takes rule w rest P) :
    Takes (select rule? otherwise) (token :: w) rest P := by
  intro recorded fresh
  obtain ⟨a, fresh', run, holds⟩ := h recorded fresh
  refine ⟨a, fresh', ?_, holds⟩
  simp only [select, List.cons_append, chosen]
  exact run

theorem select_otherwise {s : State} (none : ∀ t, s.rest.head? = some t → rule? t = none) :
    select rule? otherwise s = otherwise s := by
  unfold select
  cases hrest : s.rest with
  | nil => rfl
  | cons t rest =>
    have unchosen := none t (by rw [hrest]; rfl)
    simp only [unchosen]

theorem takes_select_otherwise {w rest : List Token}
    (none : ∀ t, (w ++ rest).head? = some t → rule? t = none)
    (h : Takes otherwise w rest P) : Takes (select rule? otherwise) w rest P := by
  intro recorded fresh
  obtain ⟨a, fresh', run, holds⟩ := h recorded fresh
  exact ⟨a, fresh', by rw [select_otherwise none, run], holds⟩

end select

theorem takes_expect {kind : TokenKind} {cause : Cause} {t : Token} (rest : List Token)
    (agrees : t.kind.agrees kind = true) :
    Takes (expect kind cause) [t] rest fun u => u = t :=
  takes_select (by rw [if_pos agrees]) (.pure t rfl)

theorem takes_accept? (kind : TokenKind) {t : Token} (rest : List Token)
    (agrees : t.kind.agrees kind = true) :
    Takes (accept? kind) [t] rest fun o => o = some t :=
  takes_select (by rw [if_pos agrees]) (.pure (some t) rfl)

theorem takes_accept?_none (kind : TokenKind) {rest : List Token}
    (absent : ∀ t, rest.head? = some t → t.kind.agrees kind = false) :
    Takes (accept? kind) [] rest fun o => o = none := by
  refine takes_select_otherwise ?_ (.pure none rfl)
  intro t ht
  rw [absent t ht]
  rfl

/-! ### Lists with commas, forwards -/

section lists

variable {item : Nat → Parser α} {P : List Token → α → Prop} {R : α → α → Prop}
  {limit : Nat} {rest : List Token}

theorem takes_moreItems_none (after : ∀ t, rest.head? = some t → t.kind ≠ .punctuator .comma)
    (bound count : Nat) : Takes (moreItems item bound count) [] rest fun bs => bs = [] := by
  cases bound with
  | zero => exact .pure [] rfl
  | succ bound =>
    refine Takes.bind_still (w := []) (takes_accept?_none (.punctuator .comma) ?_) ?_
    · intro t ht
      have other := after t ht
      rwa [← Bool.not_eq_true, TokenKind.agrees_punctuator]
    · intro o ho
      subst ho
      exact .pure [] rfl

/-- Further items of a list. Each item is followed by a comma or by what comes after the
    list. -/
theorem takes_moreItems (after : ∀ t, rest.head? = some t → t.kind ≠ .punctuator .comma)
    (h : ∀ n u a follow, n < limit → P u a →
      (follow = rest ∨ ∃ t v, follow = t :: v ∧ t.kind = .punctuator .comma) →
      Takes (item n) u follow (R a))
    {v : List Token} {as : List α} (separated : Separated P v as) :
    ∀ (comma : Token), comma.kind = .punctuator .comma →
      ∀ bound count, count + as.length ≤ limit → v.length ≤ bound →
        Takes (moreItems item (bound + 1) count) (comma :: v) rest
          fun bs => List.Forall₂ R as bs := by
  -- on the items, not on the bound: the bound is the number of tokens that are left, and
  -- every item but the last is followed by a comma
  induction separated with
  | @single w a ha =>
    intro comma hcomma bound count short _
    rw [List.length_singleton] at short
    have taken := takes_accept? (.punctuator .comma) (w ++ rest)
      (TokenKind.agrees_punctuator.2 hcomma)
    refine taken.bind (v := w) ?_
    intro o ho
    subst ho
    refine (h count w a rest (by omega) ha (.inl rfl)).bind_last ?_
    intro b hb
    refine (takes_moreItems_none after bound (count + 1)).bind_last ?_
    intro o ho
    subst ho
    exact .pure [b] (.cons hb .nil)
  | @cons w v a as comma' ha hc tail ih =>
    intro comma hcomma bound count short long
    rw [List.length_cons] at short
    rw [List.length_append, List.length_cons] at long
    obtain ⟨bound, rfl⟩ : ∃ b, bound = b + 1 := ⟨bound - 1, by omega⟩
    have taken := takes_accept? (.punctuator .comma) ((w ++ comma' :: v) ++ rest)
      (TokenKind.agrees_punctuator.2 hcomma)
    refine taken.bind (v := w ++ comma' :: v) ?_
    intro o ho
    subst ho
    refine (h count w a (comma' :: v ++ rest) (by omega) ha
      (.inr ⟨comma', v ++ rest, rfl, hc⟩)).bind ?_
    intro b hb
    refine (ih comma' hc bound (count + 1) (by omega) (by omega)).bind_last ?_
    intro bs hbs
    exact .pure (b :: bs) (.cons hb hbs)

theorem takes_commaSeparated
    (after : ∀ t, rest.head? = some t → t.kind ≠ .punctuator .comma)
    (h : ∀ n u a follow, n < limit → P u a →
      (follow = rest ∨ ∃ t v, follow = t :: v ∧ t.kind = .punctuator .comma) →
      Takes (item n) u follow (R a))
    {w : List Token} {as : List α} (separated : Separated P w as) (short : as.length ≤ limit) :
    Takes (commaSeparated item) w rest fun bs => List.Forall₂ R as bs := by
  cases separated with
  | @single _ a ha =>
    rw [List.length_singleton] at short
    refine (h 0 w a rest short ha (.inl rfl)).bind_last fun b hb => ?_
    refine (takes_remaining rest).bind_last ?_
    intro n _
    refine (takes_moreItems_none after n 1).bind_last ?_
    intro o ho
    subst ho
    exact .pure [b] (.cons hb .nil)
  | @cons w v a as comma ha hc tail =>
    rw [List.length_cons] at short
    refine (h 0 w a (comma :: v ++ rest) (by omega) ha
      (.inr ⟨comma, v ++ rest, rfl, hc⟩)).bind fun b hb => ?_
    refine (takes_remaining (comma :: v ++ rest)).bind_still ?_
    intro o ho
    subst ho
    have bound : (comma :: v ++ rest).length = (v ++ rest).length + 1 := rfl
    rw [bound]
    refine (takes_moreItems after h tail comma hc (v ++ rest).length 1 (by omega)
      (by simp)).bind_last fun bs hbs => ?_
    exact .pure (b :: bs) (.cons hb hbs)

/-- A list starts as its first item does. -/
theorem separated_starts {Q : Token → Prop}
    (starts : ∀ w a, P w a → ∃ t v, w = t :: v ∧ Q t) {w : List Token} {as : List α}
    (separated : Separated P w as) : ∃ t v, w = t :: v ∧ Q t := by
  cases separated with
  | single ha => exact starts w _ ha
  | cons ha _ _ =>
    obtain ⟨t, v, rfl, ht⟩ := starts _ _ ha
    exact ⟨t, _, rfl, ht⟩

/-- The list is followed by the closing parenthesis, and no item starts with one. -/
theorem takes_itemsBeforeParen {paren : Token} {tail : List Token}
    (hparen : paren.kind = .punctuator .rightParen)
    (starts : ∀ w a, P w a → ∃ t v, w = t :: v ∧ t.kind ≠ .punctuator .rightParen)
    (h : ∀ n u a follow, n < limit → P u a →
      (follow = paren :: tail ∨ ∃ t v, follow = t :: v ∧ t.kind = .punctuator .comma) →
      Takes (item n) u follow (R a))
    {w : List Token} {as : List α} (listed : as = [] ∧ w = [] ∨ Separated P w as)
    (short : as.length ≤ limit) :
    Takes (itemsBeforeParen item) w (paren :: tail) fun bs => List.Forall₂ R as bs := by
  refine (takes_nextIs (.punctuator .rightParen) (w ++ paren :: tail)).bind_still ?_
  intro stop hstop
  rcases listed with ⟨rfl, rfl⟩ | separated
  · have yes : stop = true := by
      rw [hstop]
      exact TokenKind.agrees_punctuator.2 hparen
    rw [if_pos yes]
    exact .pure [] .nil
  · -- the list is not taken for an empty one
    obtain ⟨t, v, hw, ht⟩ := separated_starts starts separated
    have no : ¬ stop = true := by
      rw [hstop, hw]
      exact fun agrees => ht (TokenKind.agrees_punctuator.1 agrees)
    rw [if_neg no]
    refine takes_commaSeparated ?_ h separated short
    intro t' ht'
    cases ht'
    rw [hparen]
    decide

end lists

theorem takes_introducedBy {kind : TokenKind} {rule : Parser α} {t : Token}
    {w rest : List Token} {P : α → Prop} (agrees : t.kind.agrees kind = true)
    (h : Takes rule w rest P) :
    Takes (introducedBy kind rule) (t :: w) rest fun o => ∃ a, o = some a ∧ P a := by
  refine (takes_accept? kind (w ++ rest) agrees).bind (v := w) ?_
  intro o ho
  subst ho
  exact h.map some fun a ha => ⟨a, rfl, ha⟩

theorem takes_introducedBy_none {kind : TokenKind} {rule : Parser α} {rest : List Token}
    (absent : ∀ t, rest.head? = some t → t.kind.agrees kind = false) :
    Takes (introducedBy kind rule) [] rest fun o => o = none := by
  refine Takes.bind_still (w := []) (takes_accept?_none kind absent) ?_
  intro o ho
  subst ho
  exact .pure none rfl

end Lox.Grammar
