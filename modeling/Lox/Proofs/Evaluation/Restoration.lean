import Lox.Proofs.Evaluation.Courses
import Lox.Proofs.Evaluation.Sessions

/-! # The scope is restored

  Blocks and calls run in scopes of their own, and the machine has one current scope that
  they share. A computation `Restores` if the machine is in the same scope after it as
  before, whether it ends with a value, with an error or for lack of fuel. Every computation
  of the evaluator does, on any machine and for any syntax tree, resolved or not, as a course
  leaves the scope as it is; so a session is in the global scope whenever it waits for the next
  source text.
-/

namespace Lox.Evaluation

variable {α : Type}

/-- Whether a computation ends in the scope it starts in, on every exit path. -/
def Restores (x : Run α) : Prop :=
  ∀ m, (machineAfter (x m)).scope = m.scope

theorem Adds.restores {names : List String} {x : Run α} (h : Adds names x) : Restores x :=
  fun m => (h m).scope

/-- The scope is given back, whatever becomes of the body. -/
theorem restores_within (scope : Scope) (body : Run α) : Restores (Run.within scope body) := by
  intro m
  rw [machineAfter_within]

theorem restores_interpret (host : Host) (fuel : Nat) (ss : List Stmt) :
    Restores (interpret host fuel ss) :=
  (adds_interpret host fuel ss).restores

/-! ### Between two source texts -/

theorem prepare_scope (s : Session) (source : String) :
    (s.prepare source).session.machine.scope = s.machine.scope := by
  obtain ⟨rs, _, session⟩ := prepare_session s source
  rw [session]
  exact frames_noteReferences.2.2

/-- A run that returns leaves the session in the scope it was in, also after a runtime
    error. -/
theorem run_scope {host : Host} {fuel : Nat} {source : String} {s s' : Session}
    {problems : List Problem} (ran : s.run host fuel source = some (problems, s')) :
    s'.machine.scope = s.machine.scope := by
  have ready := prepare_scope s source
  by_cases accepted : (s.prepare source).diagnostics.isEmpty = true
  · rw [Session.run, if_pos accepted, Session.execute] at ran
    have restored := restores_interpret host fuel (s.prepare source).program
      (s.prepare source).session.machine
    split at ran
    · next m run =>
      cases ran
      rw [run] at restored
      exact restored.trans ready
    · next e m run =>
      cases ran
      rw [run] at restored
      exact restored.trans ready
    · cases ran
  · rw [Session.run, if_neg accepted] at ran
    cases ran
    exact ready

theorem History.in_globals {host : Host} {s : Session} {launches : List Launch}
    (history : History host s launches) : s.machine.scope = Machine.globals := by
  induction history with
  | start sink => rfl
  | cleared _ ih => exact ih
  | refused _ _ ran ih => exact (run_scope ran).trans ih
  | ran _ _ ran ih => exact (run_scope ran).trans ih

/-- Whatever machine an expression, a statement or the statements of a body are run on, and
    however that ends, the machine is in the scope again that it was in before; so it is
    when a body is run in another scope. Between two source texts of a session the machine is
    in the global scope. -/
theorem scope_is_restored (host : Host) :
    (∀ fuel e, Restores (evaluate host fuel e)) ∧
    (∀ fuel s, Restores (execute host fuel s)) ∧
    (∀ fuel ss, Restores (executeAll host fuel ss)) ∧
    (∀ fuel scope ss, Restores (Run.within scope (executeAll host fuel ss))) ∧
    ∀ s launches, History host s launches → s.machine.scope = Machine.globals := by
  refine ⟨?_, ?_, ?_, ?_, ?_⟩
  · exact fun fuel e => ((addsAt host fuel).evaluate e).restores
  · exact fun fuel s => ((addsAt host fuel).execute s).restores
  · exact fun fuel ss => ((addsAt host fuel).executeAll ss).restores
  · exact fun fuel scope ss => restores_within scope _
  · exact fun s launches history => history.in_globals

/-- A block that fails inside another one, which is inside a function. -/
theorem scope_is_restored_after_fault :
    let host := Host.standard 0
    let source := "fun f() \x7b var a; \x7b b; \x7d \x7d \x7b f(); \x7d"
    ∃ problem s', Session.run host 12 source (.start host .unlimited) = some ([problem], s') ∧
      s'.hadRuntimeError = true ∧ s'.machine.scope = Machine.globals := by
  intro host source
  have accepted : (Session.prepare (.start host .unlimited) source).diagnostics = [] := by cbv
  have ends : (Session.run host 12 source (.start host .unlimited)).map
      (fun result => (result.1.length, result.2.hadRuntimeError)) = some (1, true) := by cbv
  obtain ⟨⟨problems, s'⟩, ran, outcome⟩ := Option.map_eq_some_iff.mp ends
  obtain ⟨one, failed⟩ := Prod.mk.inj outcome
  obtain ⟨problem, rfl⟩ := List.length_eq_one_iff.mp one
  exact ⟨problem, s', ran, failed,
    (scope_is_restored host).2.2.2.2 s' _ (.ran (.start .unlimited) accepted ran)⟩

end Lox.Evaluation
