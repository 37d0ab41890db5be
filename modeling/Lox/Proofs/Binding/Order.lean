import Lox.Proofs.Binding.Marks
import Lox.Proofs.Binding.Violations
import Lox.Proofs.Grammar.ErrorOrder
import Lox.Proofs.Grammar.Lines
import Lox.Proofs.Grammar.LoopTexts
import Lox.Proofs.Lexical.Words

/-! # The order of binding errors

  The walk over a program comes to the tokens that its errors stand at from left to right, but
  for the increment of a `for` loop: the loop is read as a `while` loop whose body ends with the
  increment, and so the errors in the body come out before those in the increment. All other
  errors come out in the order of the text, and of its lines (`errors_follow_the_text`). No order
  is stated between the errors in the value and in the object of an assignment to a property.
-/

namespace Lox.Binding

open Grammar

/-! ### Texts that are not walked from left to right -/

/-- The words after which a parenthesis belongs to a statement. -/
def announces : TokenKind → Bool
  | .keyword .ifWord => true
  | .keyword .whileWord => true
  | .keyword .forWord => true
  | _ => false

/-- Whether an expression may start after some tokens. The object of the assignment in
    `if (a) (b).c = d;` is `(b)`, and not `(a) (b)`. -/
def Admits (a : List Token) : Prop :=
  ∀ t ∈ a.getLast?, announces t.kind = false

/-- Whether a position of a text that starts with `before ++ part` is in that part. -/
def InPart (before part : List Token) (p : Nat) : Prop :=
  before.length ≤ p ∧ p < before.length + part.length

/-- The first position is in the body and the second one in the increment of a `for` loop. -/
def InLoop (w : List Token) (p q : Nat) : Prop :=
  ∃ a head increment paren body b dangling,
    w = a ++ (head ++ increment ++ paren ++ body) ++ b ∧
      LoopParts dangling head increment paren body ∧
      InPart (a ++ head ++ increment ++ paren) body p ∧ InPart (a ++ head) increment q

/-- The parts of an assignment to a property. -/
structure AssignmentParts (object middle value : List Token) : Prop where
  object : ∃ e, Tight 8 object e
  middle : ∃ dot name equals, middle = [dot, name, equals] ∧ dot.kind = .punctuator .dot ∧
    name.kind = .identifier ∧ equals.kind = .punctuator .equal
  value : ∃ e, Tight 0 value e

/-- The first position is in the value and the second one in the object of an assignment to a
    property. -/
def InAssignment (w : List Token) (p q : Nat) : Prop :=
  ∃ a object middle value b, w = a ++ (object ++ middle ++ value) ++ b ∧ Admits a ∧
    AssignmentParts object middle value ∧
    InPart (a ++ object ++ middle) value p ∧ InPart a object q

/-- The walk may come to the first position before the second one, although it stands after
    it. -/
def Overtakes (w : List Token) (p q : Nat) : Prop :=
  InLoop w p q ∨ InAssignment w p q

theorem admits_nil : Admits [] :=
  fun _ none => nomatch none

theorem admits_of_last {a : List Token} {t : Token} (last : a.getLast? = some t)
    (plain : announces t.kind = false) : Admits a := by
  intro t' mem
  rw [last] at mem
  cases mem
  exact plain

theorem admits_append (a : List Token) {b : List Token} {t : Token} (last : b.getLast? = some t)
    (plain : announces t.kind = false) : Admits (a ++ b) := by
  refine admits_of_last ?_ plain
  rw [List.getLast?_append, last]
  rfl

theorem Admits.append {a b : List Token} (ha : Admits a) (hb : Admits b) : Admits (a ++ b) := by
  intro t mem
  rw [List.getLast?_append] at mem
  cases last : b.getLast? with
  | none =>
    rw [last] at mem
    exact ha t mem
  | some t' =>
    rw [last] at mem
    exact hb t (last ▸ mem)

/-- What comes before a token that announces nothing does not matter. -/
theorem Admits.joined {b : List Token} {t : Token} (hb : Admits b)
    (quiet : announces t.kind = false) (a : List Token) : Admits (a ++ t :: b) := by
  rw [List.append_cons]
  exact (admits_append a rfl quiet).append hb

theorem InPart.within {before part : List Token} {p : Nat} (h : InPart before part p)
    (a : List Token) : InPart (a ++ before) part (a.length + p) := by
  simp only [InPart, List.length_append] at h ⊢
  omega

/-- The positions of a part come before those of a part that stands after it. -/
theorem InPart.lt {before part before' part' : List Token} {p q : Nat} (hp : InPart before part p)
    (hq : InPart before' part' q) (apart : (before ++ part).length ≤ before'.length) : p < q := by
  rw [List.length_append] at apart
  exact Nat.lt_of_lt_of_le hp.2 (apart.trans hq.1)

/-- The same in a longer text. -/
theorem Overtakes.within {w a : List Token} {p q : Nat} (h : Overtakes w p q) (ha : Admits a)
    (b : List Token) : Overtakes (a ++ w ++ b) (a.length + p) (a.length + q) := by
  rcases h with ⟨a', head, increment, paren, body, b', d, rfl, parts, hp, hq⟩ |
    ⟨a', object, middle, value, b', rfl, admits, parts, hp, hq⟩
  · refine .inl ⟨a ++ a', head, increment, paren, body, b' ++ b, d, by simp, parts, ?_, ?_⟩
    · simpa only [List.append_assoc] using hp.within a
    · simpa only [List.append_assoc] using hq.within a
  · refine .inr ⟨a ++ a', object, middle, value, b' ++ b, by simp, ha.append admits, parts, ?_, ?_⟩
    · simpa only [List.append_assoc] using hp.within a
    · simpa only [List.append_assoc] using hq.within a

/-! ### The loops of a text -/

/-- Whether a text may follow a phrase, given whether an `else` after it would belong to the
    phrase, and whether one after both of them would belong to what they are a part of. -/
def MayFollow (dangling : Bool) (b : List Token) (dangling' : Bool) : Prop :=
  dangling = true → NoElse b ∧ (b = [] → dangling' = true)

theorem mayFollow_closed (b : List Token) (dangling : Bool) : MayFollow false b dangling :=
  nofun

theorem mayFollow_nil {dangling dangling' : Bool} (imp : dangling = true → dangling' = true) :
    MayFollow dangling [] dangling' :=
  fun mark => ⟨nofun, fun _ => imp mark⟩

theorem mayFollow_cons {t : Token} (starts : t.kind ≠ .keyword .elseWord) (b : List Token)
    (dangling dangling' : Bool) : MayFollow dangling (t :: b) dangling' := by
  refine fun _ => ⟨?_, nofun⟩
  intro t' first
  cases first
  exact starts

theorem MayFollow.trans {d d' d'' : Bool} {b c : List Token} (h : MayFollow d b d')
    (h' : MayFollow d' c d'') : MayFollow d (b ++ c) d'' := by
  intro mark
  obtain ⟨apart, last⟩ := h mark
  cases b with
  | nil => exact h' (last rfl)
  | cons t b => exact ⟨apart, nofun⟩

/-- The `for` loop that starts at a position of a text, with some positions among which those in
    its body come before those in its increment. -/
def LoopAt (dangling : Bool) (w : List Token) (ps : List Nat) (k : Nat) : Prop :=
  ∃ a head increment paren body b d,
    w = a ++ (head ++ increment ++ paren ++ body) ++ b ∧ a.length = k ∧
      LoopParts d head increment paren body ∧ MayFollow d b dangling ∧
      ps.Pairwise fun p q =>
        ¬(InPart (a ++ head) increment p ∧ InPart (a ++ head ++ increment ++ paren) body q)

/-- The same in a longer text, with more positions that are not in the part. -/
theorem LoopAt.within {dangling dangling' : Bool} {text w a b : List Token} {ps : List Nat}
    {k : Nat} (h : LoopAt dangling w ps k) (split : text = a ++ w ++ b)
    (follows : MayFollow dangling b dangling') (os qs : List Nat)
    (houtside : ∀ p ∈ os, ¬InPart a w p) (houtside' : ∀ p ∈ qs, ¬InPart a w p) :
    LoopAt dangling' text (os ++ ps.map (a.length + ·) ++ qs) (a.length + k) := by
  obtain ⟨a', head, increment, paren, body, b', d, rfl, rfl, parts, follows', ordered⟩ := h
  refine ⟨a ++ a', head, increment, paren, body, b' ++ b, d, by simp [split], by simp, parts,
    follows'.trans follows, ?_⟩
  -- the other positions are neither in the increment nor in the body
  have outside : ∀ {p : Nat}, ¬InPart a (a' ++ (head ++ increment ++ paren ++ body) ++ b') p →
      ¬InPart (a ++ a' ++ head) increment p ∧
        ¬InPart (a ++ a' ++ head ++ increment ++ paren) body p := by
    intro p
    simp only [InPart, List.length_append]
    omega
  rw [List.pairwise_append, List.pairwise_append, List.pairwise_map]
  refine ⟨⟨?_, ordered.imp ?_, ?_⟩, ?_, ?_⟩
  · exact List.pairwise_of_forall_mem_list fun p hp q _ both =>
      (outside (houtside p hp)).1 both.1
  · intro p q apart both
    simp only [InPart, List.length_append] at apart both
    omega
  · exact fun p hp q _ both => (outside (houtside p hp)).1 both.1
  · exact List.pairwise_of_forall_mem_list fun p hp q _ both =>
      (outside (houtside' p hp)).1 both.1
  · exact fun p _ q hq both => (outside (houtside' q hq)).2 both.2

/-! ### Tokens in the order of a text -/

/-- Some tokens of a text, at the given positions, such that only overtaking is out of order and
    the positions in the body of a `for` loop come before those in its increment. -/
structure ArrangedAt (dangling : Bool) (w : List Token) (ps : List Nat) (ts : List Token) :
    Prop where
  found : List.Forall₂ (fun p t => w[p]? = some t) ps ts
  ordered : ps.Pairwise fun p q => p ≤ q ∨ Overtakes w p q
  loops : ∀ k t, w[k]? = some t → t.kind = .keyword .forWord → LoopAt dangling w ps k

/-- Some tokens of a text at suitable positions. -/
def Arranged (dangling : Bool) (w ts : List Token) : Prop :=
  ∃ ps, ArrangedAt dangling w ps ts

/-- Tokens of a part of a text, at positions of the whole text. Other positions that are not in
    the part do not matter to its loops. -/
structure PartAt (dangling : Bool) (text a w : List Token) (ps : List Nat) (ts : List Token) :
    Prop where
  found : List.Forall₂ (fun p t => text[p]? = some t) ps ts
  ordered : ps.Pairwise fun p q => p ≤ q ∨ Overtakes text p q
  inside : ∀ p ∈ ps, InPart a w p
  loops : ∀ k t, w[k]? = some t → t.kind = .keyword .forWord → ∀ os qs : List Nat,
    (∀ p ∈ os, ¬InPart a w p) → (∀ p ∈ qs, ¬InPart a w p) →
      LoopAt dangling text (os ++ ps ++ qs) (a.length + k)

/-- The word `for` is not in a text. -/
def LoopFree (w : List Token) : Prop :=
  ∀ t ∈ w, t.kind ≠ .keyword .forWord

theorem loopFree_nil : LoopFree [] :=
  nofun

theorem loopFree_of_quiet {t : Token} (quiet : announces t.kind = false) : LoopFree [t] := by
  intro t' mem isFor
  rw [List.mem_singleton.mp mem] at isFor
  rw [isFor] at quiet
  cases quiet

/-- A position of two texts is in the first or in the second. -/
theorem getElem?_append_cases {u v : List Token} {k : Nat} {t : Token}
    (h : (u ++ v)[k]? = some t) : u[k]? = some t ∨ ∃ k', k = u.length + k' ∧ v[k']? = some t := by
  rcases Nat.lt_or_ge k u.length with lt | ge
  · rw [List.getElem?_append_left lt] at h
    exact .inl h
  · rw [List.getElem?_append_right ge] at h
    exact .inr ⟨k - u.length, (Nat.add_sub_cancel' ge).symm, h⟩

/-- The tokens of a part, with positions moved by the length of what is put in front. -/
theorem Arranged.part {dangling dangling' : Bool} {text a w b ts : List Token}
    (h : Arranged dangling w ts) (ha : Admits a) (split : text = a ++ w ++ b)
    (follows : MayFollow dangling b dangling') : ∃ ps, PartAt dangling' text a w ps ts := by
  obtain ⟨ps, found, ordered, loops⟩ := h
  have below : ∀ p t, w[p]? = some t → p < w.length := by
    intro p t stands
    obtain ⟨lt, _⟩ := List.getElem?_eq_some_iff.mp stands
    exact lt
  obtain ⟨inside, _⟩ := (List.forall₂_and_left ps ts).mp
    (found.imp fun p t stands => ⟨below p t stands, stands⟩)
  refine ⟨ps.map (a.length + ·), ?_, ?_, ?_, ?_⟩
  · rw [List.forall₂_map_left_iff]
    refine found.imp fun p t stands => ?_
    rw [split, List.append_assoc, List.getElem?_append_right (Nat.le_add_right _ _),
      Nat.add_sub_cancel_left, List.getElem?_append_left (below p t stands)]
    exact stands
  · rw [List.pairwise_map, split]
    refine ordered.imp fun either => ?_
    exact either.imp (Nat.add_le_add_left · a.length) (·.within ha b)
  · intro q hq
    obtain ⟨p, hp, rfl⟩ := List.mem_map.mp hq
    exact ⟨Nat.le_add_right _ _, Nat.add_lt_add_left (inside p hp) _⟩
  · exact fun k t stands isFor os qs => (loops k t stands isFor).within split follows os qs

/-- A part of a text that has no loops and no tokens outside of the part. -/
theorem PartAt.arranged {dangling : Bool} {a w b ts : List Token} {ps : List Nat}
    (h : PartAt dangling (a ++ w ++ b) a w ps ts) (before : LoopFree a) (after : LoopFree b) :
    ArrangedAt dangling (a ++ w ++ b) ps ts := by
  refine ⟨h.found, h.ordered, fun k t stands isFor => ?_⟩
  rcases getElem?_append_cases stands with stands | ⟨k', rfl, inLast⟩
  · rcases getElem?_append_cases stands with inFirst | ⟨k', rfl, inPart⟩
    · exact absurd isFor (before t (List.mem_of_getElem? inFirst))
    · simpa using h.loops k' t inPart isFor [] [] nofun nofun
  · exact absurd isFor (after t (List.mem_of_getElem? inLast))

namespace Arranged

variable {dangling dangling' : Bool} {u v w ts us : List Token}

/-- No tokens. -/
theorem skip (free : LoopFree w) (dangling : Bool) : Arranged dangling w [] :=
  ⟨[], .nil, .nil, fun _ t stands isFor => absurd isFor (free t (List.mem_of_getElem? stands))⟩

theorem single {t : Token} (quiet : announces t.kind = false) : Arranged false [t] [t] := by
  refine ⟨[0], .cons rfl .nil, List.pairwise_singleton _ _, ?_⟩
  intro k t' stands isFor
  exact absurd isFor (loopFree_of_quiet quiet t' (List.mem_of_getElem? stands))

theorem sublist (h : Arranged dangling w ts) (sub : us.Sublist ts) : Arranged dangling w us := by
  obtain ⟨ps, found, ordered, loops⟩ := h
  obtain ⟨qs, fewer, found'⟩ : ∃ qs : List Nat, qs.Sublist ps ∧
      List.Forall₂ (fun p t => w[p]? = some t) qs us := by
    clear ordered loops
    induction sub generalizing ps with
    | slnil => exact ⟨[], List.nil_sublist ps, .nil⟩
    | cons t _ ih =>
      cases found with
      | cons _ later =>
        obtain ⟨qs, fewer, found'⟩ := ih _ later
        exact ⟨qs, fewer.cons _, found'⟩
    | cons_cons t _ ih =>
      cases found with
      | cons first later =>
        obtain ⟨qs, fewer, found'⟩ := ih _ later
        exact ⟨_ :: qs, fewer.cons_cons _, .cons first found'⟩
  refine ⟨qs, found', ordered.sublist fewer, fun k t stands isFor => ?_⟩
  obtain ⟨a, head, increment, paren, body, b, d, split, start, parts, follows, order⟩ :=
    loops k t stands isFor
  exact ⟨a, head, increment, paren, body, b, d, split, start, parts, follows,
    order.sublist fewer⟩

theorem before {b : List Token} (h : Arranged dangling w ts) (free : LoopFree b)
    (follows : MayFollow dangling b dangling') : Arranged dangling' (w ++ b) ts := by
  obtain ⟨ps, part⟩ := h.part admits_nil (rfl : w ++ b = [] ++ w ++ b) follows
  exact ⟨ps, PartAt.arranged part loopFree_nil free⟩

theorem after {a : List Token} (h : Arranged dangling w ts) (free : LoopFree a)
    (admits : Admits a) : Arranged dangling (a ++ w) ts := by
  obtain ⟨ps, part⟩ := h.part admits rfl (mayFollow_nil id)
  rw [← List.append_nil (a ++ w)]
  exact ⟨ps, part.arranged free loopFree_nil⟩

/-- A text behind a token, such as an operator or a parenthesis. -/
theorem led {t : Token} (h : Arranged dangling w ts) (quiet : announces t.kind = false) :
    Arranged dangling (t :: w) ts :=
  h.after (loopFree_of_quiet quiet) (admits_of_last rfl quiet)

/-- A text in front of a token, such as a parenthesis or a semicolon. -/
theorem ended {t : Token} (h : Arranged false w ts) (quiet : announces t.kind = false) :
    Arranged false (w ++ [t]) ts :=
  h.before (loopFree_of_quiet quiet) (mayFollow_closed [t] false)

/-- What is arranged in a text is arranged, too, if an `else` may follow. -/
theorem mark (h : Arranged dangling w ts) : Arranged true w ts := by
  rw [← List.append_nil w]
  exact h.before loopFree_nil (mayFollow_nil fun _ => rfl)

/-- Two texts one after the other. -/
theorem append (hu : Arranged dangling u ts) (hv : Arranged dangling' v us) (admits : Admits u)
    (follows : MayFollow dangling v dangling') : Arranged dangling' (u ++ v) (ts ++ us) := by
  obtain ⟨ps, first⟩ := hu.part admits_nil (rfl : u ++ v = [] ++ u ++ v) follows
  obtain ⟨qs, second⟩ :=
    hv.part admits (List.append_nil (u ++ v)).symm (mayFollow_nil id)
  have low : ∀ {p q}, InPart [] u p → InPart u v q → p < q :=
    fun hp hq => hp.lt hq (Nat.le_refl _)
  refine ⟨ps ++ qs, List.rel_append first.found second.found,
    List.pairwise_append.mpr ⟨first.ordered, second.ordered, ?_⟩, ?_⟩
  · exact fun p hp q hq => .inl (Nat.le_of_lt (low (first.inside p hp) (second.inside q hq)))
  · intro k t stands isFor
    rcases getElem?_append_cases stands with inFirst | ⟨k', rfl, inSecond⟩
    · have loop := first.loops k t inFirst isFor [] qs nofun fun q hq there =>
        Nat.lt_irrefl q (low there (second.inside q hq))
      simpa using loop
    · have loop := second.loops k' t inSecond isFor ps [] (fun p hp there =>
        Nat.lt_irrefl p (low (first.inside p hp) there)) nofun
      simpa using loop

/-- Two texts with a token between them that announces nothing: operands and arguments. -/
theorem joined {t : Token} (hu : Arranged false u ts) (hv : Arranged dangling v us)
    (quiet : announces t.kind = false) : Arranged dangling (u ++ t :: v) (ts ++ us) := by
  rw [List.append_cons]
  exact (hu.ended quiet).append hv (admits_append u rfl quiet) (mayFollow_closed v dangling)

/-- A text that is not walked from left to right: what comes later is marked first, after what
    stands in front of both. -/
theorem reversed {lead front earlier between later ss : List Token}
    (hfront : Arranged false front ss) (hearlier : Arranged false earlier ts)
    (hlater : Arranged dangling later us) (free : LoopFree between) (admits : Admits lead)
    (admits' : Admits (lead ++ front)) (admits'' : Admits (lead ++ front ++ earlier ++ between))
    (overtakes : ∀ p q, InPart (lead ++ front ++ earlier ++ between) later p →
      InPart (lead ++ front) earlier q →
      Overtakes (lead ++ front ++ earlier ++ between ++ later) p q)
    (loops : ∀ k t, lead[k]? = some t → t.kind = .keyword .forWord → ∀ rs : List Nat,
      (rs.Pairwise fun p q => ¬(InPart (lead ++ front) earlier p ∧
        InPart (lead ++ front ++ earlier ++ between) later q)) →
      LoopAt dangling (lead ++ front ++ earlier ++ between ++ later) rs k) :
    Arranged dangling (lead ++ front ++ earlier ++ between ++ later) (ss ++ (us ++ ts)) := by
  generalize whole : lead ++ front ++ earlier ++ between ++ later = text at overtakes loops ⊢
  obtain ⟨os, part₀⟩ := hfront.part admits
    (show text = lead ++ front ++ (earlier ++ between ++ later) by simp [← whole])
    (mayFollow_closed _ dangling)
  obtain ⟨ps, part₁⟩ := hearlier.part admits'
    (show text = lead ++ front ++ earlier ++ (between ++ later) by simp [← whole])
    (mayFollow_closed _ dangling)
  obtain ⟨qs, part₂⟩ := hlater.part admits''
    (show text = lead ++ front ++ earlier ++ between ++ later ++ [] by simp [← whole])
    (mayFollow_nil id)
  -- the three parts stand one after the other
  have frontEarlier : ∀ {p q}, InPart lead front p → InPart (lead ++ front) earlier q → p < q :=
    fun hp hq => hp.lt hq (Nat.le_refl _)
  have frontLater : ∀ {p q}, InPart lead front p →
      InPart (lead ++ front ++ earlier ++ between) later q → p < q :=
    fun hp hq => hp.lt hq (by simp only [List.length_append]; omega)
  have earlierLater : ∀ {p q}, InPart (lead ++ front) earlier p →
      InPart (lead ++ front ++ earlier ++ between) later q → p < q :=
    fun hp hq => hp.lt hq (by simp only [List.length_append]; omega)
  have notFirst : ∀ p ∈ qs ++ ps, ¬InPart lead front p := by
    intro p hp there
    rcases List.mem_append.mp hp with hp | hp
    · exact Nat.lt_irrefl p (frontLater there (part₂.inside p hp))
    · exact Nat.lt_irrefl p (frontEarlier there (part₁.inside p hp))
  have notEarlier : ∀ p ∈ os ++ qs, ¬InPart (lead ++ front) earlier p := by
    intro p hp there
    rcases List.mem_append.mp hp with hp | hp
    · exact Nat.lt_irrefl p (frontEarlier (part₀.inside p hp) there)
    · exact Nat.lt_irrefl p (earlierLater there (part₂.inside p hp))
  have notLater : ∀ p ∈ ps, ¬InPart (lead ++ front ++ earlier ++ between) later p :=
    fun p hp there => Nat.lt_irrefl p (earlierLater (part₁.inside p hp) there)
  refine ⟨os ++ (qs ++ ps), List.rel_append part₀.found (List.rel_append part₂.found part₁.found),
    ?_, ?_⟩
  · refine List.pairwise_append.mpr ⟨part₀.ordered, List.pairwise_append.mpr
      ⟨part₂.ordered, part₁.ordered, ?_⟩, ?_⟩
    · exact fun q hq p hp => .inr (overtakes q p (part₂.inside q hq) (part₁.inside p hp))
    · intro o ho p hp
      rcases List.mem_append.mp hp with hp | hp
      · exact .inl (Nat.le_of_lt (frontLater (part₀.inside o ho) (part₂.inside p hp)))
      · exact .inl (Nat.le_of_lt (frontEarlier (part₀.inside o ho) (part₁.inside p hp)))
  · intro k t stands isFor
    rw [← whole] at stands
    rcases getElem?_append_cases stands with stands | ⟨k', rfl, inLater⟩
    rcases getElem?_append_cases stands with stands | ⟨k', rfl, inBetween⟩
    rcases getElem?_append_cases stands with stands | ⟨k', rfl, inEarlier⟩
    rcases getElem?_append_cases stands with inLead | ⟨k', rfl, inFront⟩
    · refine loops k t inLead isFor _ ?_
      rw [← List.append_assoc]
      refine List.pairwise_append.mpr ⟨?_, ?_, ?_⟩
      · exact List.pairwise_of_forall_mem_list fun p hp _ _ both => notEarlier p hp both.1
      · exact List.pairwise_of_forall_mem_list fun _ _ q hq both => notLater q hq both.2
      · exact fun p hp _ _ both => notEarlier p hp both.1
    · have loop := part₀.loops k' t inFront isFor [] (qs ++ ps) nofun notFirst
      simpa using loop
    · have loop := part₁.loops k' t inEarlier isFor (os ++ qs) [] notEarlier nofun
      simpa using loop
    · exact absurd isFor (free t (List.mem_of_getElem? inBetween))
    · have loop := part₂.loops k' t inLater isFor os ps (fun p hp there =>
        Nat.lt_irrefl p (frontLater (part₀.inside p hp) there)) notLater
      simpa using loop

end Arranged

/-! ### Expressions -/

theorem announces_of_isPrefixOperator {k : TokenKind} (h : isPrefixOperator k = true) :
    announces k = false := by
  unfold announces
  split <;> first | rfl | cases h

theorem announces_of_fitsBetween {operator : Token} {left right : Nat}
    (h : Expr.fitsBetween operator left right = true) : announces operator.kind = false := by
  unfold Expr.fitsBetween at h
  unfold announces
  split
  · next kind => rw [kind] at h; cases h
  · next kind => rw [kind] at h; cases h
  · next kind => rw [kind] at h; cases h
  · rfl

theorem announces_of_literal (value : Literal) : announces value.kind = false := by
  cases value with
  | bool b => cases b <;> rfl
  | _ => rfl

mutual

/-- The marks of an expression are arranged in its text. -/
theorem arranged_expr : ∀ (e : Expr) {w : List Token}, e.respects = true → e.Spells w →
    Arranged false w (exprMarks e)
  | .literal value, _, _, h => by
    obtain ⟨t, rfl, kind⟩ := Expr.spells_literal.mp h
    have quiet : announces t.kind = false := by
      rw [kind]
      exact announces_of_literal value
    exact .skip (loopFree_of_quiet quiet) false
  | .grouping inner, _, proper, h => by
    obtain ⟨l, u, r, rfl, hl, hu, hr⟩ := Expr.spells_grouping.mp h
    exact ((arranged_expr inner proper hu).led (congrArg announces hl)).ended
      (congrArg announces hr)
  | .unary operator right, _, proper, h => by
    obtain ⟨u, rfl, hu⟩ := Expr.spells_unary.mp h
    simp only [Expr.respects, Bool.and_eq_true] at proper
    exact (arranged_expr right proper.2 hu).led (announces_of_isPrefixOperator proper.1.1)
  | .binary left operator right, _, proper, h => by
    obtain ⟨u, v, rfl, hu, hv⟩ := Expr.spells_binary.mp h
    simp only [Expr.respects, Bool.and_eq_true] at proper
    have quiet := announces_of_fitsBetween proper.1.1.1
    rw [exprMarks_binary]
    exact (arranged_expr left proper.1.2 hu).joined (arranged_expr right proper.2 hv) quiet
  | .logical left operator right, _, proper, h => by
    obtain ⟨u, v, rfl, hu, hv⟩ := Expr.spells_logical.mp h
    simp only [Expr.respects, Bool.and_eq_true] at proper
    have quiet := announces_of_fitsBetween proper.1.1.1
    rw [exprMarks_logical]
    exact (arranged_expr left proper.1.2 hu).joined (arranged_expr right proper.2 hv) quiet
  | .var _ name, _, proper, h => by
    rw [Expr.respects, beq_iff_eq] at proper
    rw [Expr.spells_var.mp h]
    exact .single (congrArg announces proper)
  | .assign node name value, _, proper, h => by
    obtain ⟨equals, v, rfl, hequals, hv⟩ := Expr.spells_assign.mp h
    rw [Expr.respects, Bool.and_eq_true, beq_iff_eq] at proper
    rw [exprMarks_assign]
    exact ((arranged_expr value proper.2 hv).led (congrArg announces hequals)).led
      (congrArg announces proper.1)
  | .call callee paren arguments, _, proper, h => by
    obtain ⟨u, l, v, rfl, hu, hl, hv⟩ := Expr.spells_call.mp h
    simp only [Expr.respects, Bool.and_eq_true, beq_iff_eq] at proper
    have first := arranged_expr callee proper.1.1.1.2 hu
    have later : Arranged false v (argumentMarks arguments) := by
      rcases hv with ⟨rfl, rfl⟩ | separated
      · exact .skip loopFree_nil false
      · exact arranged_arguments arguments proper.2 separated
    rw [exprMarks_call]
    exact (first.joined later (congrArg announces hl)).ended (congrArg announces proper.1.1.2)
  | .get object name, _, proper, h => by
    obtain ⟨u, dot, rfl, hu, hdot⟩ := Expr.spells_get.mp h
    simp only [Expr.respects, Bool.and_eq_true, beq_iff_eq] at proper
    have free : LoopFree [dot, name] := by simp [LoopFree, hdot, proper.2]
    exact (arranged_expr object proper.1.2 hu).before free (mayFollow_closed _ false)
  | .set object name value, _, proper, h => by
    obtain ⟨u, dot, equals, v, rfl, hu, hdot, hequals, hv⟩ := Expr.spells_set.mp h
    simp only [Expr.respects, Bool.and_eq_true, decide_eq_true_eq, beq_iff_eq] at proper
    obtain ⟨⟨⟨rank, properObject⟩, hname⟩, properValue⟩ := proper
    -- the value is resolved before the object, so that the two stand in reverse
    have parts : AssignmentParts u [dot, name, equals] v :=
      ⟨⟨object, properObject, rank, hu⟩, ⟨dot, name, equals, rfl, hdot, hname, hequals⟩,
        ⟨value, properValue, Nat.zero_le _, hv⟩⟩
    have free : LoopFree [dot, name, equals] := by simp [LoopFree, hdot, hname, hequals]
    have admits : Admits (u ++ [dot, name, equals]) :=
      admits_append u rfl (congrArg announces hequals)
    have whole := Arranged.reversed (.skip loopFree_nil false)
      (arranged_expr object properObject hu) (arranged_expr value properValue hv) free admits_nil
      admits_nil admits
      (fun p q hp hq => .inr ⟨[], u, _, v, [], by simp, admits_nil, parts, hp, hq⟩) nofun
    rw [exprMarks_set]
    simpa using whole
  | .thisRef _ keyword, _, proper, h => by
    rw [Expr.respects, beq_iff_eq] at proper
    rw [Expr.spells_thisRef.mp h]
    exact .single (congrArg announces proper)
  | .superRef _ keyword method, _, proper, h => by
    obtain ⟨dot, rfl, hdot⟩ := Expr.spells_superRef.mp h
    rw [Expr.respects, Bool.and_eq_true, beq_iff_eq, beq_iff_eq] at proper
    have free : LoopFree [dot, method] := by simp [LoopFree, hdot, proper.2]
    exact (Arranged.single (congrArg announces proper.1)).before free (mayFollow_closed _ false)

/-- The same for arguments and the commas between them. -/
theorem arranged_arguments : ∀ (es : List Expr) {w : List Token}, Expr.allRespect es = true →
    Separated (fun u e => e.Spells u) w es → Arranged false w (argumentMarks es)
  | [], _, _, h => nomatch h
  | e :: rest, _, proper, h => by
    rw [Expr.allRespect, Bool.and_eq_true] at proper
    rw [argumentMarks_cons]
    cases h with
    | single hu =>
      have only := arranged_expr e proper.1 hu
      rw [← List.append_nil (exprMarks e)] at only
      exact only
    | cons hu hcomma hv =>
      have later := arranged_arguments rest proper.2 hv
      exact (arranged_expr e proper.1 hu).joined later (congrArg announces hcomma)

end

theorem arranged_tight {k : Nat} {w : List Token} {e : Expr} (h : Tight k w e) :
    Arranged false w (exprMarks e) :=
  arranged_expr e h.respects h.spells

theorem arranged_optional {w : List Token} {o : Option Expr} (h : OptionalText w o) :
    Arranged false w (optionMarks o) := by
  rcases h with ⟨rfl, rfl⟩ | ⟨e, rfl, tight⟩
  · exact .skip loopFree_nil false
  · exact arranged_tight tight

/-! ### Parts of statements and declarations -/

section

variable {w : List Token}

theorem arranged_expression {s : Stmt} (h : ExpressionText w s) :
    Arranged false w (stmtMarks s) := by
  obtain ⟨v, semicolon, e, rfl, tight, hsemicolon, rfl⟩ := h
  exact (arranged_tight tight).ended (congrArg announces hsemicolon)

theorem arranged_variable {s : Stmt} (h : VariableText w s) : Arranged false w (stmtMarks s) := by
  obtain ⟨keyword, name, v, semicolon, initializer, rfl, hkeyword, hname, text, hsemicolon, rfl⟩ :=
    h
  have value : Arranged false v (optionMarks initializer) := by
    rcases text with ⟨rfl, rfl⟩ | ⟨equals, u, e, rfl, hequals, rfl, tight⟩
    · exact .skip loopFree_nil false
    · exact (arranged_tight tight).led (congrArg announces hequals)
  have named := (Arranged.single (congrArg announces hname)).append value
    (admits_of_last rfl (congrArg announces hname)) (mayFollow_closed v false)
  exact (named.led (congrArg announces hkeyword)).ended (congrArg announces hsemicolon)

theorem arranged_initializer {o : Option Stmt} (h : ForInitializerText w o) :
    Arranged false w (bodyMarks o.toList) := by
  have one : ∀ s : Stmt, bodyMarks (some s).toList = stmtMarks s :=
    fun s => List.append_nil _
  rcases h with ⟨semicolon, rfl, hsemicolon, rfl⟩ | ⟨s, rfl, text | text⟩
  · exact .skip (loopFree_of_quiet (congrArg announces hsemicolon)) false
  · rw [one]
    exact arranged_variable text
  · rw [one]
    exact arranged_expression text

theorem arranged_superclass {o : Option Expr} (h : SuperclassText w o) :
    Arranged false w (superclassMarks o) := by
  rcases h with ⟨rfl, rfl⟩ | ⟨less, name, node, rfl, hless, hname, rfl⟩
  · exact .skip loopFree_nil false
  · -- two rules speak of the name, a position after the sign
    have free : LoopFree [less, name] := by simp [LoopFree, hless, hname]
    refine ⟨[1, 1], .cons rfl (.cons rfl .nil), ?_, ?_⟩
    · exact List.pairwise_pair.mpr (.inl (Nat.le_refl 1))
    · exact fun k t stands isFor => absurd isFor (free t (List.mem_of_getElem? stands))

theorem arranged_parameters {params : List Token} (h : ParametersText w params) :
    Arranged false w params := by
  obtain ⟨few, ⟨rfl, rfl⟩ | separated⟩ := h
  · exact .skip loopFree_nil false
  · clear few
    induction separated with
    | @single w name text =>
      obtain ⟨rfl, hname⟩ := text
      exact .single (congrArg announces hname)
    | @cons w v name names comma text hcomma _ ih =>
      obtain ⟨rfl, hname⟩ := text
      exact (Arranged.single (congrArg announces hname)).joined ih (congrArg announces hcomma)

theorem admits_expression {s : Stmt} (h : ExpressionText w s) : Admits w := by
  obtain ⟨v, semicolon, e, rfl, _, hsemicolon, _⟩ := h
  exact admits_append _ rfl (congrArg announces hsemicolon)

theorem admits_variable {s : Stmt} (h : VariableText w s) : Admits w := by
  obtain ⟨keyword, name, v, semicolon, _, rfl, _, _, _, hsemicolon, _⟩ := h
  exact admits_append _ rfl (congrArg announces hsemicolon)

theorem admits_initializer {o : Option Stmt} (h : ForInitializerText w o) : Admits w := by
  rcases h with ⟨semicolon, rfl, hsemicolon, _⟩ | ⟨s, _, text | text⟩
  · exact admits_of_last rfl (congrArg announces hsemicolon)
  · exact admits_variable text
  · exact admits_expression text

end

/-! ### Statements and declarations -/

/-- An expression may start after every phrase. -/
theorem admits_phrase {p : Phrase} {w : List Token} (h : p.Spells w) : Admits w := by
  induction h with
  | expression text => exact admits_expression text
  | print _ _ hsemicolon => exact admits_append _ rfl (congrArg announces hsemicolon)
  | ret _ _ hsemicolon => exact admits_append _ rfl (congrArg announces hsemicolon)
  | block _ _ hr => exact admits_append _ rfl (congrArg announces hr)
  | ifThen _ _ _ hr _ ih => exact ih.joined (congrArg announces hr) _
  | ifElse _ _ _ _ _ hword _ _ ih' => exact ih'.joined (congrArg announces hword) _
  | whileLoop _ _ _ hr _ ih => exact ih.joined (congrArg announces hr) _
  | forLoop _ _ _ _ _ _ hr _ ih => exact ih.joined (congrArg announces hr) _
  | statement _ ih => exact ih
  | varDecl text => exact admits_variable text
  | @funDecl keyword _ _ hkeyword _ ih =>
    have front : Admits [keyword] := admits_of_last rfl (congrArg announces hkeyword)
    exact front.append ih
  | classDecl _ _ _ _ _ hr => exact admits_append _ rfl (congrArg announces hr)
  | noDeclarations => exact admits_nil
  | declarations _ _ ih ih' => exact ih.append ih'
  | function _ _ _ _ _ _ he => exact admits_append _ rfl (congrArg announces he)
  | noFunctions => exact admits_nil
  | functions _ _ ih ih' => exact ih.append ih'

/-- The tokens that errors in a phrase may stand at, and the names of functions. -/
def phraseMarks : Phrase → List Token
  | .statement _ s => stmtMarks s
  | .declaration _ s => stmtMarks s
  | .declarations ss => bodyMarks ss
  | .function f => f.name :: functionMarks f
  | .functions fs => methodMarks fs

/-- Whether an `else` after a phrase may belong to it. -/
def mayDangle : Phrase → Bool
  | .statement dangling _ => dangling
  | .declaration dangling _ => dangling
  | .declarations _ => true
  | .function _ => false
  | .functions _ => false

theorem noElse_declarations {ss : List Stmt} {w : List Token}
    (h : (Phrase.declarations ss).Spells w) : NoElse w := by
  cases h with
  | noDeclarations => nofun
  | @declarations u v s ss d first later =>
    obtain ⟨t, rest, rfl, starts⟩ := first.starts_declaration
    exact noElse_cons starts (rest ++ v)

/-- A condition in parentheses and what it decides on. -/
theorem arranged_conditional {keyword l r : Token} {u v ts : List Token} {c : Expr}
    {dangling : Bool} (plain : keyword.kind ≠ .keyword .forWord)
    (hl : l.kind = .punctuator .leftParen) (tight : Tight 0 u c)
    (hr : r.kind = .punctuator .rightParen) (h : Arranged dangling v ts) :
    Arranged dangling (keyword :: l :: u ++ r :: v) (exprMarks c ++ ts) := by
  have free : LoopFree [keyword, l] := by simp [LoopFree, plain, hl]
  have start : Admits [keyword, l] := admits_of_last rfl (congrArg announces hl)
  exact ((arranged_tight tight).after free start).joined h (congrArg announces hr)

/-- A `for` loop: its body is walked before its increment. -/
theorem arranged_forLoop {keyword l semicolon r : Token} {i c n v : List Token} {s : Stmt}
    {d : Bool} {initializer : Option Stmt} {condition increment : Option Expr}
    (hkeyword : keyword.kind = .keyword .forWord) (hl : l.kind = .punctuator .leftParen)
    (hi : ForInitializerText i initializer) (hc : OptionalText c condition)
    (hsemicolon : semicolon.kind = .punctuator .semicolon) (hn : OptionalText n increment)
    (hr : r.kind = .punctuator .rightParen) (hs : (Phrase.statement d s).Spells v)
    (body : Arranged d v (stmtMarks s)) :
    Arranged d (keyword :: l :: i ++ c ++ semicolon :: n ++ r :: v)
      (stmtMarks (forTree initializer condition increment s)) := by
  have head : [keyword, l] ++ (i ++ c ++ [semicolon]) = keyword :: l :: i ++ c ++ [semicolon] := by
    simp
  have parts : LoopParts d ([keyword, l] ++ (i ++ c ++ [semicolon])) n [r] v :=
    ⟨⟨keyword, l, semicolon, i, c, _, _, head, hkeyword, hl, hi, hc, hsemicolon⟩, ⟨_, hn⟩,
      ⟨r, rfl, hr⟩, ⟨s, hs⟩⟩
  have front : Arranged false (i ++ c ++ [semicolon])
      (bodyMarks initializer.toList ++ optionMarks condition) :=
    ((arranged_initializer hi).append (arranged_optional hc) (admits_initializer hi)
      (mayFollow_closed c false)).ended (congrArg announces hsemicolon)
  have start : Admits [keyword, l] := admits_of_last rfl (congrArg announces hl)
  have admits : Admits ([keyword, l] ++ (i ++ c ++ [semicolon])) :=
    admits_append _ List.getLast?_concat (congrArg announces hsemicolon)
  have admits' : Admits ([keyword, l] ++ (i ++ c ++ [semicolon]) ++ n ++ [r]) :=
    admits_append _ rfl (congrArg announces hr)
  have whole := Arranged.reversed front (arranged_optional hn) body
    (loopFree_of_quiet (congrArg announces hr)) start admits admits'
    (fun p q hp hq => .inl ⟨[], _, n, [r], v, [], d, by simp, parts, hp, hq⟩) ?_
  · rw [stmtMarks_forTree]
    simpa using whole
  · -- this is the loop that starts here
    intro k t stands isFor rs ordered
    cases k with
    | zero => exact ⟨[], _, n, [r], v, [], d, by simp, rfl, parts, mayFollow_nil id, ordered⟩
    | succ k =>
      cases k with
      | zero =>
        cases stands
        rw [hl] at isFor
        cases isFor
      | succ k => cases stands

/-- The marks of a phrase are arranged in its text. -/
theorem arranged_phrase {p : Phrase} {w : List Token} (h : p.Spells w) :
    Arranged (mayDangle p) w (phraseMarks p) := by
  -- on the derivation; only in a `for` loop the parts are not walked from left to right
  induction h with
  | expression text => exact arranged_expression text
  | print hkeyword tight hsemicolon =>
    exact ((arranged_tight tight).led (congrArg announces hkeyword)).ended
      (congrArg announces hsemicolon)
  | ret hkeyword text hsemicolon =>
    have quiet := congrArg announces hkeyword
    exact ((Arranged.single quiet).append (arranged_optional text) (admits_of_last rfl quiet)
      (mayFollow_closed _ false)).ended (congrArg announces hsemicolon)
  | @block l r w ss hl _ hr ih =>
    have opened : Arranged true (l :: w) (bodyMarks ss) := ih.led (congrArg announces hl)
    exact opened.before (loopFree_of_quiet (congrArg announces hr))
      (mayFollow_cons (by simp [hr]) [] true false)
  | ifThen hkeyword hl tight hr _ ih =>
    exact (arranged_conditional (by simp [hkeyword]) hl tight hr ih).mark
  | ifElse hkeyword hl tight hr _ hword _ ih ih' =>
    exact (arranged_conditional (by simp [hkeyword]) hl tight hr ih).joined ih'
      (congrArg announces hword)
  | whileLoop hkeyword hl tight hr _ ih =>
    exact arranged_conditional (by simp [hkeyword]) hl tight hr ih
  | forLoop hkeyword hl hi hc hsemicolon hn hr hs ih =>
    exact arranged_forLoop hkeyword hl hi hc hsemicolon hn hr hs ih
  | statement _ ih => exact ih
  | varDecl text => exact arranged_variable text
  | @funDecl keyword w f hkeyword _ ih =>
    have named : Arranged false w (f.name :: functionMarks f) := ih
    exact named.led (congrArg announces hkeyword)
  | classDecl hkeyword hname text hl _ hr ih =>
    have quiet := congrArg announces hname
    have head := ((Arranged.single quiet).append (arranged_superclass text)
      (admits_of_last rfl quiet) (mayFollow_closed _ false)).led (congrArg announces hkeyword)
    exact (head.joined ih (congrArg announces hl)).ended (congrArg announces hr)
  | noDeclarations => exact .skip loopFree_nil true
  | declarations first later ih ih' =>
    exact ih.append ih' (admits_phrase first) fun _ => ⟨noElse_declarations later, fun _ => rfl⟩
  | @function name l r b e u w params body hname hl text hr hb _ he ih =>
    have quiet := congrArg announces hname
    have inner : Arranged true w (bodyMarks body) := ih
    have block : Arranged false (b :: w ++ [e]) (bodyMarks body) :=
      (inner.led (congrArg announces hb)).before (loopFree_of_quiet (congrArg announces he))
        (mayFollow_cons (by simp [he]) [] true false)
    have head : Arranged false (name :: l :: u) (name :: params) :=
      (Arranged.single quiet).joined (arranged_parameters text) (congrArg announces hl)
    have whole := head.joined block (congrArg announces hr)
    show Arranged false _ (name :: functionMarks _)
    rw [functionMarks]
    simpa using whole
  | noFunctions => exact .skip loopFree_nil false
  | functions first _ ih ih' =>
    exact (ih.sublist (List.sublist_cons_self _ _)).append ih' (admits_phrase first)
      (mayFollow_closed _ false)

/-! ### Errors -/

/-- The positions in the body of a `for` loop come before those in its increment. -/
theorem ArrangedAt.body_first {dangling : Bool} {w ts : List Token} {ps : List Nat}
    (h : ArrangedAt dangling w ps ts) : ps.Pairwise fun p q => ¬InLoop w q p := by
  rw [List.pairwise_iff_forall_sublist]
  intro p q before inLoop
  obtain ⟨a, head, increment, paren, body, b, d, rfl, parts, hq, hp⟩ := inLoop
  obtain ⟨keyword, l, semicolon, i, c, _, _, whole, hkeyword, _⟩ := parts.head
  have stands : (a ++ (head ++ increment ++ paren ++ body) ++ b)[a.length]? = some keyword := by
    simp [whole]
  -- the loop that was read at this place is the same, but for the end of the body
  obtain ⟨a', head', increment', paren', body', b', d', split, start, parts', follows, ordered⟩ :=
    h.loops a.length keyword stands hkeyword
  simp only [List.append_assoc] at split
  obtain ⟨rfl, rest⟩ := List.append_inj split start.symm
  obtain ⟨rfl, rfl, rfl, longer⟩ := parts.same parts' (fun mark => (follows mark).1) rest
  have inside : InPart (a ++ head ++ increment ++ paren) body' q :=
    ⟨hq.1, Nat.lt_of_lt_of_le hq.2 (Nat.add_le_add_left longer.length_le _)⟩
  exact List.pairwise_iff_forall_sublist.mp ordered before ⟨hp, inside⟩

/-- The errors of a program that was read without syntax errors stand at tokens of its text that
    are arranged in it. -/
theorem arranged_errors {fresh : NodeId} {tokens : List Token}
    (quiet : (readProgram fresh tokens).errors = []) :
    Arranged true (bodyOf tokens)
      ((resolve (readProgram fresh tokens).value).errors.map (·.token)) := by
  -- the tree that was read and the one that its text spells differ in the identities of nodes
  obtain ⟨tree, spells, same⟩ := spells_of_readProgram quiet
  have marks : marksOf (programSites (readProgram fresh tokens).value) = bodyMarks tree := by
    rw [marksOf_programSites, ← bodyMarks_bare, same, bodyMarks_bare]
  have whole : Arranged true (bodyOf tokens) (bodyMarks tree) := arranged_phrase spells
  rw [← marks] at whole
  rw [resolve_eq (readProgram_wellFormed fresh tokens)]
  exact whole.sublist (tokens_sublist_marks _)

/-- The errors of a text that was read without syntax errors come out in the order in which
    their tokens stand in it, and so with lines one after another, but for the increments of
    `for` loops: the errors in the body of a loop come out before those in its increment. Nothing
    is said of two errors in the value and in the object of one assignment to a property. -/
theorem errors_follow_the_text (fresh : NodeId) (source : String)
    (quiet : (readProgram fresh (Lexical.tokens source)).errors = []) :
    let text := bodyOf (Lexical.tokens source)
    ∃ placed : List (Nat × BindingError),
      placed.map (·.2) = (resolve (readProgram fresh (Lexical.tokens source)).value).errors ∧
      (∀ x ∈ placed, text[x.1]? = some x.2.token) ∧
      (placed.Pairwise fun x y =>
        x.1 ≤ y.1 ∨ InLoop text x.1 y.1 ∨ InAssignment text x.1 y.1) ∧
      (placed.Pairwise fun x y => x.2.diagnostic.line ≤ y.2.diagnostic.line ∨
        InLoop text x.1 y.1 ∨ InAssignment text x.1 y.1) ∧
      placed.Pairwise fun x y => ¬InLoop text y.1 x.1 := by
  intro text
  obtain ⟨positions, arranged⟩ := arranged_errors quiet
  have bodyFirst := arranged.body_first
  have found := arranged.found
  have ordered := arranged.ordered
  generalize (resolve (readProgram fresh (Lexical.tokens source)).value).errors = errors
    at found ⊢
  rw [List.forall₂_map_right_iff, List.forall₂_iff_zip] at found
  obtain ⟨length, stands⟩ := found
  -- line numbers never decrease along a text
  have lines : text.Pairwise (·.line ≤ ·.line) :=
    (Lexical.tokens_lines source).sublist (List.takeWhile_sublist _)
  rw [← List.map_fst_zip (Nat.le_of_eq length), List.pairwise_map] at ordered bodyFirst
  refine ⟨positions.zip errors, List.map_snd_zip (Nat.le_of_eq length.symm),
    fun x mem => stands mem, ordered, ordered.imp_of_mem ?_, bodyFirst⟩
  intro x y hx hy either
  exact either.imp_left (line_le_of_le lines (stands hx) (stands hy))

/-- The theorem at a loop on two lines: the first error is the one in the body. -/
theorem errors_follow_the_text_in_loop :
    let source := "for (;; this)\nthis;"
    let text := bodyOf (Lexical.tokens source)
    (readProgram 0 (Lexical.tokens source)).errors = [] ∧
      ∃ x y : Nat × BindingError,
        (resolve (readProgram 0 (Lexical.tokens source)).value).errors = [x.2, y.2] ∧
        (∀ e ∈ [x, y], text[e.1]? = some e.2.token) ∧
        InLoop text x.1 y.1 ∧ ¬InLoop text y.1 x.1 := by
  intro source text
  have quiet : (readProgram 0 (Lexical.tokens source)).errors = [] := by decide +kernel
  have lines : (resolve (readProgram 0 (Lexical.tokens source)).value).errors.map
      (·.diagnostic.line) = [2, 1] := by decide +kernel
  obtain ⟨placed, same, stands, _, inOrder, bodyFirst⟩ := errors_follow_the_text 0 source quiet
  rw [← same, List.map_map] at lines
  obtain ⟨x, y, rfl⟩ : ∃ x y, placed = [x, y] := by
    apply List.length_eq_two.mp
    have length := congrArg List.length lines
    rwa [List.length_map] at length
  obtain ⟨second, first⟩ : x.2.diagnostic.line = 2 ∧ y.2.diagnostic.line = 1 := by
    simpa using lines
  have overtaken := List.pairwise_pair.mp inOrder
  rw [second, first] at overtaken
  refine ⟨quiet, x, y, same.symm, stands, ?_, List.pairwise_pair.mp bodyFirst⟩
  -- there is no assignment to a property in this text
  refine (overtaken.resolve_left (by decide)).resolve_right ?_
  rintro ⟨a, object, middle, value, b, split, _, parts, _⟩
  obtain ⟨dot, name, equals, rfl, hdot, _⟩ := parts.middle
  have noDot : ∀ t ∈ bodyOf (Lexical.tokens source), t.kind ≠ .punctuator .dot := by
    decide +kernel
  rw [split] at noDot
  have mem : dot ∈ a ++ (object ++ [dot, name, equals] ++ value) ++ b := by simp
  exact noDot dot mem hdot

/-- The errors of a loop on two lines come out on lines 2 and 1. -/
theorem error_in_increment_comes_last :
    let source := "for (;; this)\nthis;"
    Lexical.errors source = [] ∧ (readProgram 0 (Lexical.tokens source)).errors = [] ∧
      (resolve (readProgram 0 (Lexical.tokens source)).value).diagnostics.map (·.line) =
        [2, 1] := by
  intro source
  exact ⟨by decide +kernel, by decide +kernel, by decide +kernel⟩

end Lox.Binding
