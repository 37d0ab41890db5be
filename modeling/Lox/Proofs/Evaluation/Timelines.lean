import Mathlib.Data.List.Pairwise
import Lox.Proofs.Evaluation.Turns

/-! # Calls in time

  The calls that a call makes are made one after another: the first has ended before the second
  begins (`calls_apart`), and what is there at the end of a call is there at the end of the one
  that made it (`calls_end`). So a number that is drawn from what only grows, such as the
  identity of a frame or of a class, is drawn by one call of a run only (`Numbers.once`).
-/

namespace Lox.Evaluation

variable {host : Host} {m m' : Machine} {c c' c₁ c₂ : Config}

/-! ### Beginnings and ends -/

/-- A call begins with all that was there when the call began that makes it. -/
theorem calls_begin (calls : Calls host c c') : Older c.machine c'.machine := by
  obtain ⟨_, turns, _⟩ := parts_in_turn host c
  exact turns.begins c' (mem_parts.mpr calls)

/-- What is there at the end of a call is there at the end of the call that makes it. -/
theorem calls_end (calls : Calls host c c') : Older (c'.after host) (c.after host) := by
  obtain ⟨m', turns, own⟩ := parts_in_turn host c
  rw [own]
  exact (turns.ends c' (mem_parts.mpr calls)).trans (older_afterWrites _ m')

/-- Of two calls that a call makes, one has ended when the other begins. -/
def Apart (host : Host) (c₁ c₂ : Config) : Prop :=
  Older (c₁.after host) c₂.machine ∨ Older (c₂.after host) c₁.machine

theorem calls_apart (h₁ : Calls host c c₁) (h₂ : Calls host c c₂) :
    c₁ = c₂ ∨ Apart host c₁ c₂ := by
  obtain ⟨_, turns, _⟩ := parts_in_turn host c
  have either : (parts host c).Pairwise (Apart host) := turns.apart.imp Or.inl
  have symmetric : Std.Symm (Apart host) := ⟨fun _ _ => Or.symm⟩
  by_cases same : c₁ = c₂
  · exact .inl same
  · exact .inr (either.forall (mem_parts.mpr h₁) (mem_parts.mpr h₂) same)

section

variable {fuel : Nat}

theorem older_evaluate {e : Expr} {v : Value} (run : evaluate host fuel e m = .ok v m') :
    Older m m' :=
  (((addsAt host fuel).evaluate e).ok run).toOlder

theorem evaluate_ended {e : Expr} {v : Value} (run : evaluate host fuel e m = .ok v m') :
    Older (Config.after host ⟨fuel, .evaluate e, m⟩) m' := by
  show Older (machineAfter (evaluate host fuel e m)) m'
  rw [run]
  exact .refl m'

end

/-! ### Numbers drawn once -/

/-- Calls draw numbers from a mark of the machine that only grows: a number is above the mark
    before the call and below it after, and calls that it makes are over by then or come
    later. -/
structure Numbers (host : Host) (mark : Machine → Nat) (Draws : Config → Nat → Prop) : Prop where
  grows : ∀ {m m'}, Older m m' → mark m ≤ mark m'
  inside : ∀ {c n}, Draws c n → mark c.machine ≤ n ∧ n < mark (c.after host)
  apart : ∀ {c c' n}, Draws c n → Calls host c c' →
    mark (c'.after host) ≤ n ∨ n < mark c'.machine

section

variable {mark : Machine → Nat} {Draws : Config → Nat → Prop} {n : Nat}

theorem Numbers.within (h : Numbers host mark Draws) (reached : Reaches host c c')
    (draws : Draws c' n) : mark c.machine ≤ n ∧ n < mark (c.after host) := by
  induction reached with
  | refl => exact h.inside draws
  | step calls _ ih =>
    obtain ⟨above, below⟩ := ih draws
    exact ⟨Nat.le_trans (h.grows (calls_begin calls)) above,
      Nat.lt_of_lt_of_le below (h.grows (calls_end calls))⟩

/-- What a call draws itself, none of the calls does that it makes. -/
theorem Numbers.not_below (h : Numbers host mark Draws) (draws : Draws c n)
    (calls : Calls host c c₁) (reached : Reaches host c₁ c₂) : ¬Draws c₂ n := by
  intro draws'
  have within := h.within reached draws'
  rcases h.apart draws calls with earlier | later
  · omega
  · omega

/-- In the course of a run a number is drawn by one call only. -/
theorem Numbers.once (h : Numbers host mark Draws) (reached₁ : Reaches host c c₁)
    (reached₂ : Reaches host c c₂) (draws₁ : Draws c₁ n) (draws₂ : Draws c₂ n) : c₁ = c₂ := by
  induction reached₁ with
  | refl =>
    cases reached₂ with
    | refl => rfl
    | step calls reached => exact absurd draws₂ (h.not_below draws₁ calls reached)
  | step calls₁ inside₁ ih =>
    cases reached₂ with
    | refl => exact absurd draws₁ (h.not_below draws₂ calls₁ inside₁)
    | step calls₂ inside₂ =>
      have within₁ := h.within inside₁ draws₁
      have within₂ := h.within inside₂ draws₂
      rcases calls_apart calls₁ calls₂ with rfl | before | after
      · exact ih inside₂ draws₁
      -- one of the two calls has ended when the other begins
      · have later := h.grows before
        omega
      · have later := h.grows after
        omega

end

end Lox.Evaluation
