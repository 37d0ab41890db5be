import Lox.Proofs.Evaluation.Foresight

/-! # More fuel

  Fuel only bounds how long a computation may take. One that ends before its fuel does, with a
  result or with a runtime error, ends in the same way on the same machine with any greater
  amount of it (`Outlasts`). This is what is foretold for any number of calls of one host.
-/

namespace Lox.Evaluation

variable {α β : Type} {host : Host} {fuel fuel' : Nat}

/-- Whether a computation has used up its fuel. -/
def Starves : EStateM.Result Halt Machine α → Prop
  | .error .starved _ => True
  | _ => False

theorem Starves.eq_error {r : EStateM.Result Halt Machine α} (h : Starves r) :
    ∃ m, r = .error .starved m := by
  cases r with
  | ok a m => exact h.elim
  | error e m =>
    cases e with
    | starved => exact ⟨m, rfl⟩
    | fault e => exact h.elim

/-- Whether a computation does what another one does, wherever that one does not starve. -/
def Outlasts (x y : Run α) : Prop :=
  ∀ m, Starves (x m) ∨ y m = x m

section

variable {x y z : Run α}

theorem Outlasts.refl (x : Run α) : Outlasts x x :=
  fun _ => .inr rfl

theorem Outlasts.trans (h : Outlasts x y) (h' : Outlasts y z) : Outlasts x z := by
  intro m
  rcases h m with starves | same
  · exact .inl starves
  · rcases h' m with starves | same'
    · rw [same] at starves
      exact .inl starves
    · exact .inr (same'.trans same)

/-- What did not starve ends in the same way with what outlasts it. -/
theorem Outlasts.eq (h : Outlasts x y) {m : Machine} (ends : ¬Starves (x m)) : y m = x m :=
  (h m).resolve_left ends

theorem Outlasts.foretells (h : Outlasts x y) (n : Nat) : Foretells n x y := by
  intro m
  rcases h m with starves | same
  · obtain ⟨m₁, run⟩ := starves.eq_error
    rw [run]
    exact .inl trivial
  · exact .inr same

/-- No computation calls the host more often than it does. -/
theorem Outlasts.of_foretells (h : ∀ n, Foretells n x y) : Outlasts x y := by
  intro m
  cases run : x m with
  | ok a m₁ =>
    have same := (h 0 m).resolve_left fun short => by rwa [run] at short
    exact .inr (same.trans run)
  | error e m₁ =>
    rcases h m₁.hostCalls m with short | same
    · rw [run] at short
      cases e with
      | starved => exact .inl trivial
      | fault e => exact absurd short (Nat.lt_irrefl _)
    · exact .inr (same.trans run)

theorem outlasts_starved (y : Run α) : Outlasts (throw .starved) y :=
  .of_foretells fun _ => foretells_starved y

theorem outlasts_bind {f g : α → Run β} (first : Outlasts x y)
    (second : ∀ a, Outlasts (f a) (g a)) : Outlasts (x >>= f) (y >>= g) :=
  .of_foretells fun n => foretells_bind (first.foretells n) fun a => (second a).foretells n

theorem outlasts_then {f : α → Run β} (first : Outlasts x y) : Outlasts (x >>= f) (y >>= f) :=
  outlasts_bind first fun a => .refl (f a)

theorem outlasts_within {scope : Scope} (h : Outlasts x y) :
    Outlasts (Run.within scope x) (Run.within scope y) :=
  .of_foretells fun n => foretells_within (h.foretells n)

end

theorem evaluate_outlasts (more : fuel ≤ fuel') (e : Expr) :
    Outlasts (evaluate host fuel e) (evaluate host fuel' e) :=
  .of_foretells fun n => (foretellsAt (.refl n host) more).evaluate e

theorem execute_outlasts (more : fuel ≤ fuel') (s : Stmt) :
    Outlasts (execute host fuel s) (execute host fuel' s) :=
  .of_foretells fun n => (foretellsAt (.refl n host) more).execute s

theorem executeAll_outlasts (more : fuel ≤ fuel') (ss : List Stmt) :
    Outlasts (executeAll host fuel ss) (executeAll host fuel' ss) :=
  .of_foretells fun n => (foretellsAt (.refl n host) more).executeAll ss

end Lox.Evaluation
