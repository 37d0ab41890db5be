import Mathlib.Data.Option.Basic
import Mathlib.Data.List.Infix
import Lox.Proofs.Grammar.Runs

/-! # Moving ahead

  A parser only moves ahead: it leaves some last part of the tokens that were before it
  (`Moves`). A strict one takes a token, if there is any, whenever it succeeds; and a parser
  that gives up does so at the token it leaves in front.

  The rules of the grammar are functions of the readers of nested phrases, which are bounded.
  `Alike` says of two parsers, on states with fewer than `n` tokens, that they do the same
  and move ahead. It has one lemma for every rule: since a nested phrase is read only after a
  token has been taken, readers that are alike on fewer than `n` tokens make the rule alike
  on fewer than `n + 1`. With the same reader twice this says that the rule moves ahead; with
  readers and repetitions of different bounds it says that the bounds make no difference.
-/

namespace Lox.Grammar

variable {α β : Type} {n : Nat} {strict : Bool}

/-! ### The judgement -/

/-- How a run has moved from a state: to a last part of its tokens, a strict one past a token
    if there was any, and with an error at the token in front. -/
def Moves (strict : Bool) (s : State) : EStateM.Result SyntaxError State α → Prop
  | .ok _ s' =>
    s'.rest <:+ s.rest ∧
      (strict = true → s.rest ≠ [] → s'.rest.length < s.rest.length)
  | .error e s' => s'.rest <:+ s.rest ∧ e.token = s'.rest.head?

/-- Two parsers that do the same with fewer than `n` tokens, and move ahead. -/
def Alike (strict : Bool) (n : Nat) (p q : Parser α) : Prop :=
  ∀ s, s.rest.length < n → p s = q s ∧ Moves strict s (p s)

theorem Moves.suffix {s : State} {r : EStateM.Result SyntaxError State α}
    (h : Moves strict s r) : (finalState r).rest <:+ s.rest := by
  cases r with
  | ok a s' => exact h.1
  | error e s' => exact h.1

namespace Alike

variable {p q : Parser α} {f g : α → Parser β}

theorem zero (p q : Parser α) : Alike strict 0 p q :=
  fun _ no => absurd no (Nat.not_lt_zero _)

theorem mono {n' : Nat} (h : Alike strict n p q) (fewer : n' ≤ n) : Alike strict n' p q :=
  fun s few => h s (Nat.lt_of_lt_of_le few fewer)

theorem loose (h : Alike strict n p q) : Alike false n p q := by
  intro s few
  obtain ⟨same, moves⟩ := h s few
  refine ⟨same, ?_⟩
  cases run : p s with
  | ok a s' =>
    rw [run] at moves
    exact ⟨moves.1, nofun⟩
  | error e s' =>
    rw [run] at moves
    exact moves

theorem pure (a : α) : Alike false n (pure a) (pure a) :=
  fun s _ => ⟨rfl, List.suffix_refl s.rest, nofun⟩

theorem reject (cause : Cause) :
    Alike strict n (reject cause : Parser α) (Grammar.reject cause) :=
  fun s _ => ⟨rfl, List.suffix_refl s.rest, rfl⟩

/-- With no token left it is enough that both do the same there. -/
theorem of_empty (h : ∀ s, s.rest = [] → p s = q s ∧ Moves strict s (p s)) :
    Alike strict 1 p q := by
  intro s few
  apply h s
  exact List.length_eq_zero_iff.mp (Nat.lt_one_iff.mp few)

/-- One after the other: the whole is strict if either part is. -/
theorem both {a b : Bool} (first : Alike a n p q) (second : ∀ x, Alike b n (f x) (g x)) :
    Alike (a || b) n (p >>= f) (q >>= g) := by
  intro s few
  obtain ⟨same, moves⟩ := first s few
  cases run : p s with
  | error e s' =>
    rw [run] at same moves
    rw [bind_of_error run, bind_of_error same.symm]
    exact ⟨rfl, moves⟩
  | ok x s' =>
    rw [run] at same moves
    obtain ⟨ahead, taken⟩ := moves
    have shorter := ahead.length_le
    obtain ⟨same', moves'⟩ := second x s' (Nat.lt_of_le_of_lt shorter few)
    rw [bind_of_ok run, bind_of_ok same.symm]
    refine ⟨same', ?_⟩
    cases run' : f x s' with
    | error e s'' =>
      rw [run'] at moves'
      exact ⟨moves'.1.trans ahead, moves'.2⟩
    | ok y s'' =>
      rw [run'] at moves'
      obtain ⟨ahead', taken'⟩ := moves'
      have shorter' := ahead'.length_le
      refine ⟨ahead'.trans ahead, ?_⟩
      intro either nonempty
      rcases Bool.or_eq_true_iff.mp either with ha | hb
      · exact Nat.lt_of_le_of_lt shorter' (taken ha nonempty)
      · -- the first part may have taken all tokens already
        by_cases ended : s'.rest = []
        · rw [ended, List.length_nil] at shorter'
          have some := List.length_pos_iff.mpr nonempty
          omega
        · exact Nat.lt_of_lt_of_le (taken' hb ended) shorter

theorem bind (first : Alike strict n p q) (second : ∀ x, Alike false n (f x) (g x)) :
    Alike strict n (p >>= f) (q >>= g) := by
  simpa using first.both second

theorem follow (first : Alike false n p q) (second : ∀ x, Alike strict n (f x) (g x)) :
    Alike strict n (p >>= f) (q >>= g) := by
  simpa using first.both second

theorem map (h : Alike strict n p q) (k : α → β) : Alike strict n (k <$> p) (k <$> q) := by
  rw [map_eq_bind, map_eq_bind]
  exact h.bind fun a => .pure (k a)

end Alike

/-! ### The basic parsers -/

/-- A parser that only looks. -/
theorem alike_still {p : Parser α} {g : State → α} (h : ∀ s, p s = .ok (g s) s) :
    Alike false n p p := by
  intro s _
  rw [h s]
  exact ⟨rfl, List.suffix_refl s.rest, nofun⟩

theorem alike_nextIs (kind : TokenKind) : Alike false n (nextIs kind) (nextIs kind) :=
  alike_still fun _ => rfl

theorem alike_freshNode : Alike false n freshNode freshNode :=
  fun s _ => ⟨rfl, List.suffix_refl s.rest, nofun⟩

theorem alike_record (error : SyntaxError) : Alike false n (record error) (record error) :=
  fun s _ => ⟨rfl, List.suffix_refl s.rest, nofun⟩

theorem alike_recordHere (cause : Cause) : Alike false n (recordHere cause) (recordHere cause) :=
  fun s _ => ⟨rfl, List.suffix_refl s.rest, nofun⟩

/-- What is bounded by the number of tokens left. -/
theorem alike_remaining {f g : Nat → Parser α}
    (h : ∀ bound < n, Alike strict (bound + 1) (f bound) (g bound)) :
    Alike strict n (remaining >>= f) (remaining >>= g) :=
  fun s few => h s.rest.length few s (Nat.lt_succ_self _)

theorem select_empty {rule? : Token → Option (Parser α)} {otherwise : Parser α} {s : State}
    (ended : s.rest = []) : select rule? otherwise s = otherwise s := by
  simp only [select, ended]

/-- The rule that is chosen has one token less before it. -/
theorem alike_select {rule? rule?' : Token → Option (Parser α)} {otherwise otherwise' : Parser α}
    (chosen : ∀ token, Option.Rel (Alike false n) (rule? token) (rule?' token))
    (other : Alike strict (n + 1) otherwise otherwise') :
    Alike strict (n + 1) (select rule? otherwise) (select rule?' otherwise') := by
  intro s few
  cases hrest : s.rest with
  | nil =>
    rw [select_empty hrest, select_empty hrest]
    exact other s few
  | cons token rest =>
    have both := chosen token
    unfold select
    simp only [hrest]
    generalize rule? token = found at both
    generalize rule?' token = found' at both
    cases both with
    | none => exact other s few
    | @some rule rule' h =>
      -- the token is taken before the rule begins
      have less : rest.length < n := by
        rw [hrest, List.length_cons] at few
        omega
      obtain ⟨same, moves⟩ := h { s with rest } less
      refine ⟨same, ?_⟩
      show Moves strict s (rule { s with rest })
      cases run : rule { s with rest } with
      | ok a s' =>
        rw [run] at moves
        have ahead : s'.rest <:+ rest := moves.1
        have shorter := ahead.length_le
        refine ⟨?_, ?_⟩
        · rw [hrest]
          exact ahead.trans (List.suffix_cons token rest)
        · intro _ _
          rw [hrest, List.length_cons]
          omega
      | error e s' =>
        rw [run] at moves
        refine ⟨?_, moves.2⟩
        rw [hrest]
        exact List.IsSuffix.trans moves.1 (List.suffix_cons token rest)

/-- A choice by a test on the token. -/
theorem alike_selectIf {test : Token → Prop} [DecidablePred test] {f f' : Token → Parser α}
    {otherwise otherwise' : Parser α} (chosen : ∀ token, Alike false n (f token) (f' token))
    (other : Alike strict (n + 1) otherwise otherwise') :
    Alike strict (n + 1)
      (select (fun token => if test token then some (f token) else none) otherwise)
      (select (fun token => if test token then some (f' token) else none) otherwise') := by
  apply alike_select _ other
  intro token
  by_cases fits : test token
  · simp only [fits, if_true]
    exact .some (chosen token)
  · simp only [fits, if_false]
    exact .none

theorem alike_expect (kind : TokenKind) (cause : Cause) :
    Alike strict n (expect kind cause) (expect kind cause) :=
  (alike_selectIf (fun token => .pure token) (.reject cause)).mono (Nat.le_succ n)

theorem alike_accept?_bind {kind : TokenKind} {f g : Option Token → Parser β}
    (absent : Alike strict (n + 1) (f none) (g none))
    (present : ∀ t, Alike false n (f (some t)) (g (some t))) :
    Alike strict (n + 1) (accept? kind >>= f) (accept? kind >>= g) := by
  rw [accept?_bind, accept?_bind]
  exact alike_selectIf present absent

theorem alike_introducedBy {kind : TokenKind} {p q : Parser α} (h : Alike false n p q) :
    Alike false n (introducedBy kind p) (introducedBy kind q) := by
  cases n with
  | zero => exact .zero _ _
  | succ n => exact alike_accept?_bind (.pure none) fun t => (h.mono (Nat.le_succ n)).map some

/-- A parser that first looks whether to go on. -/
theorem alike_test {test : Parser Bool} {yes yes' no no' : Parser α}
    (look : Alike false n test test) (hyes : Alike strict n yes yes')
    (hno : Alike strict n no no') :
    Alike strict n (do if ← test then yes else no) (do if ← test then yes' else no') := by
  apply look.follow
  intro found
  by_cases h : found = true
  · rw [if_pos h, if_pos h]
    exact hyes
  · rw [if_neg h, if_neg h]
    exact hno

/-! ### Repetitions -/

section

variable {item item' : Nat → Parser α}

theorem moreItems_empty (bound count : Nat) {s : State} (ended : s.rest = []) :
    moreItems item bound count s = .ok [] s := by
  cases bound with
  | zero => rfl
  | succ bound =>
    rw [moreItems, accept?_bind, select_empty ended]
    rfl

theorem alike_moreItems {bound bound' : Nat} (count : Nat)
    (h : ∀ count, Alike false n (item count) (item' count)) (enough : n ≤ bound + 1)
    (enough' : n ≤ bound' + 1) :
    Alike false n (moreItems item bound count) (moreItems item' bound' count) := by
  -- on the number of tokens: after each comma there is one less
  induction n generalizing bound bound' count with
  | zero => exact .zero _ _
  | succ n ih =>
    by_cases last : n = 0
    · subst last
      apply Alike.of_empty
      intro s ended
      rw [moreItems_empty bound count ended, moreItems_empty bound' count ended]
      exact ⟨rfl, List.suffix_refl _, nofun⟩
    · obtain ⟨b, rfl⟩ : ∃ b, bound = b + 1 := Nat.exists_eq_succ_of_ne_zero (by omega)
      obtain ⟨b', rfl⟩ : ∃ b, bound' = b + 1 := Nat.exists_eq_succ_of_ne_zero (by omega)
      apply alike_accept?_bind (.pure [])
      intro t
      have fewer := fun count => (h count).mono (Nat.le_succ n)
      apply (fewer count).bind
      intro next
      exact (ih (count + 1) fewer (by omega) (by omega)).bind fun others => .pure _

theorem alike_commaSeparated (h : ∀ count, Alike strict n (item count) (item' count)) :
    Alike strict n (commaSeparated item) (commaSeparated item') := by
  apply (h 0).bind
  intro first
  apply alike_remaining
  intro bound few
  have fewer := fun count => ((h count).mono (Nat.succ_le_of_lt few)).loose
  exact (alike_moreItems 1 fewer (Nat.le_refl _) (Nat.le_refl _)).bind fun others => .pure _

theorem alike_itemsBeforeParen (h : ∀ count, Alike strict n (item count) (item' count)) :
    Alike false n (itemsBeforeParen item) (itemsBeforeParen item') :=
  alike_test (alike_nextIs _) (.pure []) (alike_commaSeparated h).loose

/-- An item that may be one too many. -/
theorem alike_limited {p q : Parser α} (h : Alike strict n p q) (cause : Cause) (count : Nat) :
    Alike strict n (do
      if maxArity ≤ count then
        recordHere cause
      p) (do
      if maxArity ≤ count then
        recordHere cause
      q) := by
  by_cases many : maxArity ≤ count
  · simp only [if_pos many]
    exact (alike_recordHere cause).follow fun _ => h
  · simp only [if_neg many]
    exact h

end

section

variable {stop : Parser Bool} {item item' : Parser α}

/-- A stopping point is found by looking, and the end is one. -/
def Halts (stop : Parser Bool) : Prop :=
  ∃ look : State → Bool, (∀ s, stop s = .ok (look s) s) ∧ ∀ s, s.rest = [] → look s = true

theorem halts_atEnd : Halts atEnd :=
  ⟨fun s => s.rest.isEmpty, fun _ => rfl, fun _ ended => List.isEmpty_iff.mpr ended⟩

theorem halts_atBodyEnd : Halts atBodyEnd := by
  refine ⟨fun s => s.rest.isEmpty ||
    s.rest.head?.any (·.kind.agrees (.punctuator .rightBrace)), fun _ => rfl, ?_⟩
  intro s ended
  simp only [ended, List.isEmpty_nil, Bool.true_or]

theorem itemsUntil_stop {s : State} (look : stop s = .ok true s) (bound : Nat) :
    itemsUntil stop item bound s = .ok [] s := by
  cases bound with
  | zero => rfl
  | succ bound =>
    rw [itemsUntil, bind_of_ok look]
    rfl

theorem itemsUntil_item {s : State} (look : stop s = .ok false s) (bound : Nat) :
    itemsUntil stop item (bound + 1) s = (do
      let next ← item
      let others ← itemsUntil stop item bound
      return next :: others) s := by
  rw [itemsUntil, bind_of_ok look]
  rfl

theorem alike_itemsUntil {bound bound' : Nat} (halts : Halts stop) (h : Alike true n item item')
    (enough : n ≤ bound + 1) (enough' : n ≤ bound' + 1) :
    Alike false n (itemsUntil stop item bound) (itemsUntil stop item' bound') := by
  obtain ⟨look, looks, atEmpty⟩ := halts
  -- on the number of tokens: an item before the stopping point takes at least one
  induction n generalizing bound bound' with
  | zero => exact .zero _ _
  | succ n ih =>
    intro s few
    have looked := looks s
    cases found : look s with
    | true =>
      rw [found] at looked
      rw [itemsUntil_stop looked, itemsUntil_stop looked]
      exact ⟨rfl, List.suffix_refl _, nofun⟩
    | false =>
      rw [found] at looked
      have nonempty : s.rest ≠ [] := by
        intro ended
        rw [atEmpty s ended] at found
        cases found
      have some := List.length_pos_iff.mpr nonempty
      obtain ⟨b, rfl⟩ : ∃ b, bound = b + 1 := Nat.exists_eq_succ_of_ne_zero (by omega)
      obtain ⟨b', rfl⟩ : ∃ b, bound' = b + 1 := Nat.exists_eq_succ_of_ne_zero (by omega)
      rw [itemsUntil_item looked, itemsUntil_item looked]
      obtain ⟨same, moves⟩ := h s few
      cases run : item s with
      | error e s' =>
        rw [run] at same moves
        rw [bind_of_error run, bind_of_error same.symm]
        exact ⟨rfl, moves⟩
      | ok next s' =>
        rw [run] at same moves
        obtain ⟨ahead, taken⟩ := moves
        have shorter := taken rfl nonempty
        have later : Alike false n (itemsUntil stop item b) (itemsUntil stop item' b') :=
          ih (h.mono (Nat.le_succ n)) (by omega) (by omega)
        have collected := later.bind fun others => Alike.pure (next :: others)
        obtain ⟨same', moves'⟩ := collected s' (by omega)
        rw [bind_of_ok run, bind_of_ok same.symm]
        refine ⟨same', ?_⟩
        generalize (itemsUntil stop item b >>= fun others => Pure.pure (next :: others)) s' =
          result at moves'
        cases result with
        | ok items s'' => exact ⟨moves'.1.trans ahead, nofun⟩
        | error e s'' => exact ⟨moves'.1.trans ahead, moves'.2⟩

end

/-! ### Expressions -/

section

variable {e e' : Parser Expr}

theorem alike_superRule (keyword : Token) :
    Alike false n (superRule keyword) (superRule keyword) := by
  apply (alike_expect _ _).bind
  intro _
  apply (alike_expect _ _).bind
  intro method
  exact alike_freshNode.bind fun node => .pure _

theorem alike_groupingRule (h : Alike true n e e') :
    Alike false n (groupingRule e) (groupingRule e') := by
  apply h.loose.bind
  intro inner
  exact (alike_expect _ _).bind fun _ => .pure _

theorem alike_primary (h : Alike true n e e') : Alike true (n + 1) (primary e) (primary e') := by
  apply alike_select _ (.reject _)
  intro token
  unfold primaryRule?
  split
  · exact .some (.pure _)
  · exact .some (.pure _)
  · exact .some (.pure _)
  · exact .some (.pure _)
  · exact .some (.pure _)
  · exact .some (alike_superRule token)
  · exact .some (alike_freshNode.bind fun node => .pure _)
  · exact .some (alike_freshNode.bind fun node => .pure _)
  · exact .some (alike_groupingRule h)
  · exact .none

theorem alike_callRule (h : Alike true n e e') (callee : Expr) :
    Alike false n (callRule e callee) (callRule e' callee) := by
  have arguments : ∀ count, Alike true n (argument e count) (argument e' count) :=
    alike_limited h _
  apply (alike_itemsBeforeParen arguments).bind
  intro values
  exact (alike_expect _ _).bind fun paren => .pure _

theorem alike_propertyRule (object : Expr) :
    Alike false n (propertyRule object) (propertyRule object) :=
  (alike_expect _ _).bind fun _ => .pure _

theorem suffixes_empty (bound : Nat) (x : Expr) {s : State} (ended : s.rest = []) :
    suffixes e bound x s = .ok x s := by
  cases bound with
  | zero => rfl
  | succ bound =>
    rw [suffixes, select_empty ended]
    rfl

theorem alike_suffixes {bound bound' : Nat} (x : Expr) (h : Alike true n e e')
    (enough : n ≤ bound) (enough' : n ≤ bound') :
    Alike false (n + 1) (suffixes e bound x) (suffixes e' bound' x) := by
  induction n generalizing bound bound' x with
  | zero =>
    apply Alike.of_empty
    intro s ended
    rw [suffixes_empty bound x ended, suffixes_empty bound' x ended]
    exact ⟨rfl, List.suffix_refl _, nofun⟩
  | succ n ih =>
    obtain ⟨b, rfl⟩ : ∃ b, bound = b + 1 := Nat.exists_eq_succ_of_ne_zero (by omega)
    obtain ⟨b', rfl⟩ : ∃ b, bound' = b + 1 := Nat.exists_eq_succ_of_ne_zero (by omega)
    have more : ∀ y, Alike false (n + 1) (suffixes e b y) (suffixes e' b' y) :=
      fun y => ih y (h.mono (Nat.le_succ n)) (by omega) (by omega)
    apply alike_select _ (.pure x)
    intro token
    unfold suffixRule?
    split
    · exact .some ((alike_callRule h x).bind more)
    · exact .some ((alike_propertyRule x).bind more)
    · exact .none

theorem alike_call (h : Alike true n e e') : Alike true (n + 1) (call e) (call e') := by
  apply (alike_primary h).bind
  intro x
  apply alike_remaining
  intro bound few
  exact alike_suffixes x (h.mono (by omega)) (Nat.le_refl _) (Nat.le_refl _)

/-- With no token left there is no expression. -/
theorem call_empty {s : State} (ended : s.rest = []) : call e s = .error ⟨none, .expression⟩ s := by
  have start : primary e s = .error ⟨s.rest.head?, .expression⟩ s := select_empty ended
  rw [ended] at start
  exact bind_of_error start

theorem unary_empty (bound : Nat) {s : State} (ended : s.rest = []) :
    unary e bound s = call e s := by
  cases bound with
  | zero => rfl
  | succ bound => exact select_empty ended

theorem alike_unary {bound bound' : Nat} (h : Alike true n e e') (enough : n ≤ bound)
    (enough' : n ≤ bound') : Alike true (n + 1) (unary e bound) (unary e' bound') := by
  induction n generalizing bound bound' with
  | zero =>
    apply Alike.of_empty
    intro s ended
    rw [unary_empty bound ended, unary_empty bound' ended]
    exact alike_call h s (by simp [ended])
  | succ n ih =>
    obtain ⟨b, rfl⟩ : ∃ b, bound = b + 1 := Nat.exists_eq_succ_of_ne_zero (by omega)
    obtain ⟨b', rfl⟩ : ∃ b, bound' = b + 1 := Nat.exists_eq_succ_of_ne_zero (by omega)
    have operand : Alike true (n + 1) (unary e b) (unary e' b') :=
      ih (h.mono (Nat.le_succ n)) (by omega) (by omega)
    exact alike_selectIf (fun token => operand.loose.bind fun right => .pure _) (alike_call h)

theorem chain_empty (level : Level) (bound : Nat) (left : Expr) {s : State}
    (ended : s.rest = []) : level.chain e bound left s = .ok left s := by
  cases bound with
  | zero => rfl
  | succ bound =>
    rw [Level.chain, select_empty ended]
    rfl

theorem alike_chain (level : Level) {bound bound' : Nat} (left : Expr) (h : Alike true n e e')
    (enough : n ≤ bound + 1) (enough' : n ≤ bound' + 1) :
    Alike false n (level.chain e bound left) (level.chain e' bound' left) := by
  induction n generalizing bound bound' left with
  | zero => exact .zero _ _
  | succ n ih =>
    by_cases last : n = 0
    · subst last
      apply Alike.of_empty
      intro s ended
      rw [chain_empty level bound left ended, chain_empty level bound' left ended]
      exact ⟨rfl, List.suffix_refl _, nofun⟩
    · obtain ⟨b, rfl⟩ : ∃ b, bound = b + 1 := Nat.exists_eq_succ_of_ne_zero (by omega)
      obtain ⟨b', rfl⟩ : ∃ b, bound' = b + 1 := Nat.exists_eq_succ_of_ne_zero (by omega)
      have fewer := h.mono (Nat.le_succ n)
      apply alike_selectIf _ (.pure left)
      intro token
      apply fewer.loose.bind
      intro right
      exact ih _ fewer (by omega) (by omega)

theorem alike_level (level : Level) (h : Alike true n e e') :
    Alike true n (level.parser e) (level.parser e') := by
  apply h.bind
  intro first
  apply alike_remaining
  intro bound few
  exact alike_chain level first (h.mono few) (Nat.le_refl _) (Nat.le_refl _)

theorem alike_operation (h : Alike true n e e') : ∀ levels : List Level,
    Alike true (n + 1) (operation e levels) (operation e' levels)
  | [] => by
    apply alike_remaining
    intro bound few
    exact alike_unary (h.mono (by omega)) (Nat.le_refl _) (Nat.le_refl _)
  | level :: tighter => alike_level level (alike_operation h tighter)

theorem alike_assignTo (target : Expr) (equals : Token) (value : Expr) :
    Alike false n (assignTo target equals value) (assignTo target equals value) := by
  unfold assignTo
  split
  · exact alike_freshNode.bind fun node => .pure _
  · exact .pure _
  · exact (alike_record _).bind fun _ => .pure _

/-- A nested expression is read only after a token has been taken. -/
theorem alike_assignment (h : Alike true n e e') :
    Alike true (n + 1) (assignment e) (assignment e') := by
  apply (alike_operation h levels).bind
  intro target
  apply alike_accept?_bind (.pure target)
  intro equals
  exact h.loose.bind fun value => alike_assignTo target equals value

end

theorem assignment_empty {e : Parser Expr} {s : State} (ended : s.rest = []) :
    assignment e s = .error ⟨none, .expression⟩ s := by
  have start : ∀ levels : List Level,
      operation e levels s = .error ⟨none, .expression⟩ s := by
    intro levels
    induction levels with
    | nil =>
      show unary e s.rest.length s = _
      rw [unary_empty _ ended, call_empty ended]
    | cons level tighter ih => exact bind_of_error ih
  exact bind_of_error (start levels)

theorem expression_empty (depth : Nat) {s : State} (ended : s.rest = []) :
    expression depth s = .error ⟨none, .expression⟩ s := by
  cases depth with
  | zero =>
    rw [expression, reject, ended]
    rfl
  | succ depth => exact assignment_empty ended

/-- Reading an expression moves ahead, whatever the bound on its nesting. -/
theorem expression_moves (depth : Nat) : Alike true n (expression depth) (expression depth) := by
  induction depth generalizing n with
  | zero => exact .reject _
  | succ depth ih => exact (alike_assignment ih).mono (Nat.le_succ n)

/-- A bound on the nesting that is not below the number of tokens is as good as any other. -/
theorem alike_expression {depth depth' : Nat} (enough : n ≤ depth + 1) (enough' : n ≤ depth' + 1) :
    Alike true n (expression depth) (expression depth') := by
  induction n generalizing depth depth' with
  | zero => exact .zero _ _
  | succ n ih =>
    by_cases last : n = 0
    · subst last
      apply Alike.of_empty
      intro s ended
      refine ⟨?_, (expression_moves depth s (Nat.lt_succ_self _)).2⟩
      rw [expression_empty depth ended, expression_empty depth' ended]
    · obtain ⟨d, rfl⟩ : ∃ d, depth = d + 1 := Nat.exists_eq_succ_of_ne_zero (by omega)
      obtain ⟨d', rfl⟩ : ∃ d, depth' = d + 1 := Nat.exists_eq_succ_of_ne_zero (by omega)
      exact alike_assignment (ih (by omega) (by omega))

theorem nestedExpression_moves : Alike true n nestedExpression nestedExpression :=
  alike_remaining fun bound _ => expression_moves bound

/-! ### Statements and declarations -/

theorem alike_expressionStatement :
    Alike true n expressionStatement expressionStatement := by
  apply nestedExpression_moves.bind
  intro value
  exact (alike_expect _ _).bind fun _ => .pure _

theorem alike_printRule (keyword : Token) :
    Alike false n (printRule keyword) (printRule keyword) := by
  apply nestedExpression_moves.loose.bind
  intro value
  exact (alike_expect _ _).bind fun _ => .pure _

theorem alike_expressionUnless (kind : TokenKind) :
    Alike false n (expressionUnless kind) (expressionUnless kind) :=
  alike_test (alike_nextIs kind) (.pure none)
    (nestedExpression_moves.loose.bind fun value => .pure (some value))

theorem alike_returnRule (keyword : Token) :
    Alike false n (returnRule keyword) (returnRule keyword) := by
  apply (alike_expressionUnless _).bind
  intro value
  exact (alike_expect _ _).bind fun _ => .pure _

theorem alike_varRule : Alike false n varRule varRule := by
  apply (alike_expect _ _).bind
  intro name
  apply (alike_introducedBy nestedExpression_moves.loose).bind
  intro initializer
  exact (alike_expect _ _).bind fun _ => .pure _

section

variable {stmt stmt' : Parser Stmt} {decl decl' : Parser (Option Stmt)}

theorem alike_blockBody (h : Alike true n decl decl') :
    Alike false n (blockBody decl) (blockBody decl') := by
  apply alike_remaining
  intro bound few
  apply (alike_itemsUntil halts_atBodyEnd (h.mono few) (Nat.le_refl _) (Nat.le_refl _)).bind
  intro body
  exact (alike_expect _ _).bind fun _ => .pure _

theorem alike_ifRule (h : Alike true n stmt stmt') :
    Alike false n (ifRule stmt) (ifRule stmt') := by
  apply (alike_expect _ _).bind
  intro _
  apply nestedExpression_moves.loose.bind
  intro condition
  apply (alike_expect _ _).bind
  intro _
  apply h.loose.bind
  intro thenBranch
  exact (alike_introducedBy h.loose).bind fun elseBranch => .pure _

theorem alike_whileRule (h : Alike true n stmt stmt') :
    Alike false n (whileRule stmt) (whileRule stmt') := by
  apply (alike_expect _ _).bind
  intro _
  apply nestedExpression_moves.loose.bind
  intro condition
  apply (alike_expect _ _).bind
  intro _
  exact h.loose.bind fun body => .pure _

theorem alike_forInitializer :
    Alike false n (select forInitializerRule? (some <$> expressionStatement))
      (select forInitializerRule? (some <$> expressionStatement)) := by
  have whole : Alike false (n + 1) (select forInitializerRule? (some <$> expressionStatement))
      (select forInitializerRule? (some <$> expressionStatement)) := by
    apply alike_select _ (alike_expressionStatement.loose.map some)
    intro token
    unfold forInitializerRule?
    split
    · exact .some (.pure none)
    · exact .some (alike_varRule.map some)
    · exact .none
  exact whole.mono (Nat.le_succ n)

theorem alike_forRule (h : Alike true n stmt stmt') :
    Alike false n (forRule stmt) (forRule stmt') := by
  apply (alike_expect _ _).bind
  intro _
  apply alike_forInitializer.bind
  intro initializer
  apply (alike_expressionUnless _).bind
  intro condition
  apply (alike_expect _ _).bind
  intro _
  apply (alike_expressionUnless _).bind
  intro increment
  apply (alike_expect _ _).bind
  intro _
  exact h.loose.bind fun body => .pure _

theorem alike_anyStatement (hs : Alike true n stmt stmt') (hd : Alike true n decl decl') :
    Alike true (n + 1) (anyStatement stmt decl) (anyStatement stmt' decl') := by
  apply alike_select _ alike_expressionStatement
  intro token
  unfold statementRule?
  split
  · exact .some (alike_forRule hs)
  · exact .some (alike_ifRule hs)
  · exact .some (alike_printRule token)
  · exact .some (alike_returnRule token)
  · exact .some (alike_whileRule hs)
  · exact .some ((alike_blockBody hd).map Stmt.block)
  · exact .none

theorem alike_routine (kind : Routine) (h : Alike true n decl decl') :
    Alike true n (routine kind decl) (routine kind decl') := by
  have params : ∀ count, Alike true n (parameter count) (parameter count) :=
    alike_limited (alike_expect _ _) _
  apply (alike_expect _ _).bind
  intro name
  apply (alike_expect _ _).bind
  intro _
  apply (alike_itemsBeforeParen params).bind
  intro params
  apply (alike_expect _ _).bind
  intro _
  apply (alike_expect _ _).bind
  intro _
  exact (alike_blockBody h).bind fun body => .pure _

theorem alike_superclassName : Alike false n superclassName superclassName := by
  apply (alike_expect _ _).bind
  intro name
  exact alike_freshNode.bind fun node => .pure _

theorem alike_classRule (h : Alike true n decl decl') :
    Alike false n (classRule decl) (classRule decl') := by
  apply (alike_expect _ _).bind
  intro name
  apply (alike_introducedBy alike_superclassName).bind
  intro parent
  apply (alike_expect _ _).bind
  intro _
  apply alike_remaining
  intro bound few
  apply (alike_itemsUntil halts_atBodyEnd ((alike_routine .method h).mono few) (Nat.le_refl _)
    (Nat.le_refl _)).bind
  intro methods
  exact (alike_expect _ _).bind fun _ => .pure _

/-- A declaration before errors are recovered from. -/
def declaring (stmt : Parser Stmt) (decl : Parser (Option Stmt)) : Parser Stmt :=
  select (declarationRule? decl) (anyStatement stmt decl)

theorem alike_declaring (hs : Alike true n stmt stmt') (hd : Alike true n decl decl') :
    Alike true (n + 1) (declaring stmt decl) (declaring stmt' decl') := by
  apply alike_select _ (alike_anyStatement hs hd)
  intro token
  unfold declarationRule?
  split
  · exact .some (alike_classRule hd)
  · exact .some ((alike_routine .function hd).loose.map Stmt.funDecl)
  · exact .some alike_varRule
  · exact .none

end

/-! ### Recovering from errors -/

theorem resume_suffix : ∀ tokens : List Token, resume tokens <:+ tokens
  | [] => List.suffix_refl _
  | [_] => List.nil_suffix
  | token :: next :: rest => by
    rw [resume]
    split
    · exact List.suffix_cons token _
    · exact (resume_suffix (next :: rest)).trans (List.suffix_cons token _)

theorem length_resume_lt : ∀ tokens : List Token, tokens ≠ [] →
    (resume tokens).length < tokens.length
  | [_], _ => Nat.zero_lt_one
  | token :: next :: rest, _ => by
    rw [resume]
    split
    · exact Nat.lt_succ_self _
    · exact Nat.lt_succ_of_lt (length_resume_lt (next :: rest) (List.cons_ne_nil _ _))

theorem recovering_ok {p : Parser α} {s s' : State} {a : α} (run : p s = .ok a s') :
    recovering p s = .ok (some a) s' := by
  rw [recovering, run]

theorem recovering_error {p : Parser α} {s s' : State} {e : SyntaxError}
    (run : p s = .error e s') :
    recovering p s =
      .ok none { s' with rest := resume s'.rest, recorded := s'.recorded ++ [e] } := by
  rw [recovering, run]

/-- Where a rule gives up, reading resumes further on. -/
theorem alike_recovering {p q : Parser α} (h : Alike true n p q) :
    Alike true n (recovering p) (recovering q) := by
  intro s few
  obtain ⟨same, moves⟩ := h s few
  cases run : p s with
  | ok a s' =>
    rw [run] at same moves
    rw [recovering_ok run, recovering_ok same.symm]
    exact ⟨rfl, moves⟩
  | error e s' =>
    rw [run] at same moves
    rw [recovering_error run, recovering_error same.symm]
    have ahead : s'.rest <:+ s.rest := moves.1
    refine ⟨rfl, (resume_suffix s'.rest).trans ahead, ?_⟩
    intro _ nonempty
    have shorter := ahead.length_le
    show (resume s'.rest).length < s.rest.length
    by_cases ended : s'.rest = []
    · -- the error is at the end, and tokens were taken on the way to it
      rw [ended]
      exact List.length_pos_iff.mpr nonempty
    · exact Nat.lt_of_lt_of_le (length_resume_lt _ ended) shorter

/-! ### The knot -/

theorem declaration_succ (depth : Nat) : declaration (depth + 1) =
    recovering (declaring (statement depth) (declaration depth)) := by
  rw [declaration]
  rfl

/-- Reading a statement or a declaration moves ahead, whatever the bound on the nesting. -/
theorem statement_declaration_move (depth n : Nat) :
    Alike true n (statement depth) (statement depth) ∧
      Alike true n (declaration depth) (declaration depth) := by
  induction depth generalizing n with
  | zero =>
    rw [statement, declaration]
    exact ⟨.reject _, alike_recovering (.reject _)⟩
  | succ depth ih =>
    obtain ⟨hs, hd⟩ := ih n
    rw [statement, declaration_succ]
    exact ⟨(alike_anyStatement hs hd).mono (Nat.le_succ n),
      (alike_recovering (alike_declaring hs hd)).mono (Nat.le_succ n)⟩

theorem anyStatement_empty {stmt : Parser Stmt} {decl : Parser (Option Stmt)} {s : State}
    (ended : s.rest = []) : anyStatement stmt decl s = .error ⟨none, .expression⟩ s := by
  rw [anyStatement, select_empty ended]
  have start : nestedExpression s = .error ⟨none, .expression⟩ s := expression_empty _ ended
  exact bind_of_error start

theorem statement_empty (depth : Nat) {s : State} (ended : s.rest = []) :
    statement depth s = .error ⟨none, .expression⟩ s := by
  cases depth with
  | zero =>
    rw [statement, reject, ended]
    rfl
  | succ depth =>
    rw [statement]
    exact anyStatement_empty ended

theorem declaration_empty (depth : Nat) {s : State} (ended : s.rest = []) :
    declaration depth s = .ok none
      { s with rest := resume s.rest, recorded := s.recorded ++ [⟨none, .expression⟩] } := by
  cases depth with
  | zero =>
    rw [declaration]
    apply recovering_error
    rw [reject, ended]
    rfl
  | succ depth =>
    rw [declaration_succ]
    apply recovering_error
    rw [declaring, select_empty ended]
    exact anyStatement_empty ended

theorem alike_statement_declaration {depth depth' : Nat} (enough : n ≤ depth + 1)
    (enough' : n ≤ depth' + 1) :
    Alike true n (statement depth) (statement depth') ∧
      Alike true n (declaration depth) (declaration depth') := by
  induction n generalizing depth depth' with
  | zero => exact ⟨.zero _ _, .zero _ _⟩
  | succ n ih =>
    by_cases last : n = 0
    · subst last
      refine ⟨.of_empty ?_, .of_empty ?_⟩
      · intro s ended
        refine ⟨?_, ((statement_declaration_move depth _).1 s (Nat.lt_succ_self _)).2⟩
        rw [statement_empty depth ended, statement_empty depth' ended]
      · intro s ended
        refine ⟨?_, ((statement_declaration_move depth _).2 s (Nat.lt_succ_self _)).2⟩
        rw [declaration_empty depth ended, declaration_empty depth' ended]
    · obtain ⟨d, rfl⟩ : ∃ d, depth = d + 1 := Nat.exists_eq_succ_of_ne_zero (by omega)
      obtain ⟨d', rfl⟩ : ∃ d, depth' = d + 1 := Nat.exists_eq_succ_of_ne_zero (by omega)
      obtain ⟨hs, hd⟩ : Alike true n (statement d) (statement d') ∧
        Alike true n (declaration d) (declaration d') := ih (by omega) (by omega)
      rw [statement, statement, declaration_succ, declaration_succ]
      exact ⟨alike_anyStatement hs hd, alike_recovering (alike_declaring hs hd)⟩

end Lox.Grammar
