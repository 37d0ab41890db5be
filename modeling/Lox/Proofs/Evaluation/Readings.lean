import Lox.Command.Execution
import Lox.Proofs.Evaluation.Foresight

/-! # Reading the clock when a program asks for it

  What the clock shows is not known before it is read, and it is read only when a program asks
  for it. A text is therefore run with the readings there are. If it asks for more, it stops
  there, the clock is read once more, and the text is run again. What it does when the readings
  are enough is what it does with a clock that shows these readings and goes on as it likes:
  when it is run in a session (`run_of_known`) or at the prompt (`runLine_of_known`), and when a
  command reports on it (`reportEntry_of_known`).
-/

namespace Lox.Evaluation

variable {n : Nat} {host host' : Host} {fuel : Nat}

/-! ### Sessions -/

theorem Foresees.execute (foresees : Foresees n host host') {program : List Stmt} {s s' : Session}
    {problems : List Problem} (ran : Session.execute host fuel program s = some (problems, s'))
    (enough : s'.machine.hostCalls ≤ n) :
    Session.execute host' fuel program s = some (problems, s') := by
  have told := foretells_interpret foresees (Nat.le_refl fuel) program s.machine
  unfold Session.execute at ran ⊢
  cases run : interpret host fuel program s.machine with
  | ok _ m =>
    rw [run] at told ran
    rw [told.resolve_left id]
    exact ran
  | error e m =>
    rw [run] at told ran
    cases e with
    | starved => cases ran
    | fault e =>
      cases ran
      rw [told.resolve_left (Nat.not_lt.mpr enough)]

theorem Foresees.run (foresees : Foresees n host host') {source : String} {s s' : Session}
    {problems : List Problem} (ran : s.run host fuel source = some (problems, s'))
    (enough : s'.machine.hostCalls ≤ n) : s.run host' fuel source = some (problems, s') := by
  unfold Session.run at ran ⊢
  dsimp only at ran ⊢
  by_cases accepted : (s.prepare source).diagnostics.isEmpty = true
  · rw [if_pos accepted] at ran ⊢
    exact foresees.execute ran enough
  · rw [if_neg accepted] at ran ⊢
    exact ran

/-! ### The clock -/

section

variable {readings : Array Float} {reading : Nat → Option Float}

/-- Where the clock was not read, a call fails. -/
theorem foresees_known
    (shows : ∀ i seconds, readings[i]? = some seconds → reading i = some seconds) :
    Foresees readings.size (.known readings) (.timed reading) := by
  intro called arguments earlier
  unfold Host.known
  rw [call_timed, call_timed]
  by_cases clock : (⟨"clock", 0⟩ : Native) = called
  · rw [if_pos clock, if_pos clock]
    unfold Host.clock
    dsimp only
    cases known : readings[earlier]? with
    | some seconds =>
      rw [shows earlier seconds known]
      exact .inl rfl
    | none => exact .inr ⟨Array.getElem?_eq_none_iff.mp known, _, rfl⟩
  · rw [if_neg clock, if_neg clock]
    exact .inl rfl

variable (shows : ∀ i seconds, readings[i]? = some seconds → reading i = some seconds)
include shows

theorem run_of_known {source : String} {s s' : Session} {problems : List Problem}
    (ran : s.run (.known readings) fuel source = some (problems, s'))
    (enough : s'.machine.hostCalls ≤ readings.size) :
    s.run (.timed reading) fuel source = some (problems, s') :=
  (foresees_known shows).run ran enough

theorem runLine_of_known {line : String} {s s' : Session} {problems : List Problem}
    (ran : Command.runLine (.known readings) fuel line s = some (problems, s'))
    (enough : s'.machine.hostCalls ≤ readings.size) :
    Command.runLine (.timed reading) fuel line s = some (problems, s') := by
  unfold Command.runLine at ran ⊢
  obtain ⟨⟨told, last⟩, inner, same⟩ := Option.map_eq_some_iff.mp ran
  cases same
  exact Option.map_eq_some_iff.mpr ⟨_, run_of_known shows inner enough, rfl⟩

theorem scriptReport_of_known {source : String} {report : Command.Report}
    (done : Command.scriptReport (.known readings) fuel source = some report)
    (enough : report.hostCalls ≤ readings.size) :
    Command.scriptReport (.timed reading) fuel source = some report := by
  unfold Command.scriptReport at done ⊢
  split at done
  · next problems last ran =>
    cases done
    have ran' := run_of_known shows ran enough
    -- both sessions start with the same global names
    rw [show Session.start (.timed reading) .unlimited = .start (.known readings) .unlimited
      from rfl, ran']
  · cases done

theorem evaluateReport_of_known {source : String} {report : Command.Report}
    (done : Command.evaluateReport (.known readings) fuel source = some report)
    (enough : report.hostCalls ≤ readings.size) :
    Command.evaluateReport (.timed reading) fuel source = some report := by
  unfold Command.evaluateReport at done ⊢
  split at done
  · exact done
  · next e _ =>
    have told := (foretellsAt (foresees_known shows) (Nat.le_refl fuel)).evaluate e
      (.start (.known readings) .unlimited)
    rw [show Machine.start (.timed reading) .unlimited = .start (.known readings) .unlimited
      from rfl]
    cases run : evaluate (.known readings) fuel e (.start (.known readings) .unlimited) with
    | ok v m =>
      rw [run] at told done
      rw [told.resolve_left id]
      exact done
    | error halt m =>
      rw [run] at told done
      cases halt with
      | starved => cases done
      | fault e =>
        cases done
        rw [told.resolve_left (Nat.not_lt.mpr enough)]

/-- A report for which the readings were enough is the one that a clock leads to that shows
    them. -/
theorem reportEntry_of_known {path : String} {entry : Command.Entry} {task : Command.Task}
    {report : Command.Report}
    (done : task.reportEntry (.known readings) fuel path entry = some report)
    (enough : report.hostCalls ≤ readings.size) :
    task.reportEntry (.timed reading) fuel path entry = some report := by
  unfold Command.Task.reportEntry at done ⊢
  split at done
  · next source _ =>
    cases task with
    | script => exact scriptReport_of_known shows done enough
    | tokenize json => exact done
    | parse => exact done
    | evaluate => exact evaluateReport_of_known shows done enough
  · exact done

end

end Lox.Evaluation
