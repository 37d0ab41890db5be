import Lox.Proofs.Evaluation.Sessions

/-! # Errors that no source text gives rise to

  Some errors guard against programs that no source text stands for: an operator in the wrong
  place, or a `this` or `super` that is nowhere to be found. A program that was read and
  accepted raises none of them, however far it gets: its operators are known where they
  stand, and inside a class there is always an activation that holds `this` and `super`.
-/

namespace Lox.Evaluation

variable {host : Host} {s : Session} {launches : List Launch} {source : String} {fuel : Nat}

/-! ### What the errors say -/

/-- What the defensive errors say. -/
def defensiveMessages : List String :=
  ["Undefined variable 'this'.", "Undefined variable 'super'.",
    "Can't use 'super' outside of a class.", "Invalid 'this' binding.", "Invalid unary operator.",
    "Invalid binary operator."]

/-- A text that starts unlike each of some others is none of them. -/
theorem append_notMem {start : String} (rest : String) {texts : List String}
    (unlike : ∀ text ∈ texts, ¬start.toList <+: text.toList) : start ++ rest ∉ texts := by
  intro mem
  exact unlike _ mem ⟨rest.toList, String.toList_append.symm⟩

/-- Only the defensive errors say what they say, unless a function of the host does. -/
theorem defensive_of_message {cause : RuntimeCause} (h : cause.message ∈ defensiveMessages) :
    Defensive cause ∨ ∃ text, cause = .hostFailure text := by
  cases cause with
  | hostFailure text => exact .inr ⟨text, rfl⟩
  | superOutside | thisNotInstance | unaryOperator | binaryOperator => exact .inl trivial
  | undefinedVariable name =>
    -- a message that quotes a name tells which one
    have quoted : ∀ {other}, (RuntimeCause.undefinedVariable name).message =
        (RuntimeCause.undefinedVariable other).message → name = other :=
      fun same => (String.append_right_inj _).mp ((String.append_left_inj _).mp same)
    rcases List.mem_cons.mp h with this | h
    · exact .inl (.inl (quoted this))
    · rcases List.mem_cons.mp h with super | h
      · exact .inl (.inr (quoted super))
      · have text : (RuntimeCause.undefinedVariable name).message =
            "Undefined variable '" ++ (name ++ "'.") := String.append_assoc
        rw [text] at h
        -- the words in front of the name are those of no defensive message
        exact absurd h (append_notMem _ (by decide))
  | undefinedProperty name =>
    have text : (RuntimeCause.undefinedProperty name).message =
        "Undefined property '" ++ (name ++ "'.") := String.append_assoc
    rw [text] at h
    exact absurd h (append_notMem _ (by decide))
  | outputRefused reason =>
    have text : (RuntimeCause.outputRefused reason).message =
        "Unable to write output: " ++ reason := rfl
    rw [text] at h
    exact absurd h (append_notMem _ (by decide))
  | arity expected actual =>
    have text : (RuntimeCause.arity expected actual).message =
        "Expected " ++ toString expected ++ " arguments but got " ++ toString actual ++ "." := rfl
    rw [text, String.append_assoc, String.append_assoc, String.append_assoc] at h
    exact absurd h (append_notMem _ (by decide))
  | _ => exact absurd h (by decide)

/-! ### Calls that fail -/

/-- Whether a call stops with a runtime error. -/
def Fails (host : Host) (c : Config) (e : RuntimeError) : Prop :=
  ∃ m', match c.call with
    | .evaluate x => evaluate host c.fuel x c.machine = .error (.fault e) m'
    | .evaluateAll xs => evaluateAll host c.fuel xs c.machine = .error (.fault e) m'
    | .invoke f arguments paren =>
      invoke host c.fuel f arguments paren c.machine = .error (.fault e) m'
    | .enter closure arguments paren =>
      enter host c.fuel closure arguments paren c.machine = .error (.fault e) m'
    | .instantiate ofClass arguments paren =>
      instantiate host c.fuel ofClass arguments paren c.machine = .error (.fault e) m'
    | .execute x => execute host c.fuel x c.machine = .error (.fault e) m'
    | .executeAll xs => executeAll host c.fuel xs c.machine = .error (.fault e) m'
    | .loop condition body => loop host c.fuel condition body c.machine = .error (.fault e) m'
    | .interpret xs => interpret host c.fuel xs c.machine = .error (.fault e) m'

/-- A call that fits fails for no defensive reason. -/
theorem Fits.harmless {L : Ledger} (honest : Honest host) (lawful : Lawful L) {c : Config}
    (fits : Fits L host c) {e : RuntimeError} (fails : Fails host c e) : ¬Defensive e.cause := by
  obtain ⟨fuel, call, m⟩ := c
  obtain ⟨m', run⟩ := fails
  have sound := soundAt honest lawful fuel
  cases call with
  | evaluate => exact (sound.evaluate fits).harmless run
  | evaluateAll => exact (sound.evaluateAll fits).harmless run
  | invoke => exact (sound.invoke fits).harmless run
  | enter => exact (sound.enter fits).harmless run
  | instantiate => exact (sound.instantiate fits).harmless run
  | execute => exact (sound.execute fits).harmless run
  | executeAll => exact (sound.executeAll fits).harmless run
  | loop => exact (sound.loop fits).harmless run
  | interpret => exact (sound_interpret honest lawful fits).harmless run

/-- Where it fits, `super` fails only for want of a method. -/
theorem Fits.super_fails {L : Ledger} (lawful : Lawful L) {n : Nat} {node : NodeId}
    {keyword method : Token} {m : Machine}
    (fits : Fits L host ⟨n, .evaluate (.superRef node keyword method), m⟩) {e : RuntimeError}
    (fails : Fails host ⟨n, .evaluate (.superRef node keyword method), m⟩ e) :
    e = ⟨method, .undefinedProperty method.lexeme⟩ := by
  obtain ⟨m', run⟩ := fails
  cases n with
  | zero => cases run
  | succ n =>
    obtain ⟨_, _, _, _, _, noted, super, this⟩ := Placed.super lawful fits.good fits.call.1
    have eq := superMethod_found noted super this method
    have run : superMethod node keyword method m = .error (.fault e) m' := run
    rw [run] at eq
    split at eq
    · cases eq
    · cases eq
      rfl

/-- Whichever source texts a session has run, a text that is accepted raises no defensive error,
    however far its run gets: no call in the course of it fails with one, no `super` fails for
    a superclass that is no class, and none is among the problems that the run reports. Nothing
    that is reported says what they say, unless a function of the host says so. -/
theorem defensive_errors_are_unreachable (honest : Honest host)
    (history : History host s launches) (accepted : (s.prepare source).diagnostics = []) :
    (∀ c e, Reaches host (launch s fuel source).config c → Fails host c e →
      ¬Defensive e.cause ∧
      ∀ node keyword method, c.call = .evaluate (.superRef node keyword method) →
        e.cause ≠ .superclassNotClass) ∧
    ∀ problems s', s.run host fuel source = some (problems, s') → ∀ e, .fault e ∈ problems →
      ¬Defensive e.cause ∧
      (e.message ∈ defensiveMessages → ∃ text, e.cause = .hostFailure text) := by
  have settled := history.settled honest
  have lawful : Lawful (ledger host (launch s fuel source :: launches)) :=
    settled.lawful_cons accepted
  have start : Fits _ host (launch s fuel source).config := settled.launch_fits accepted
  refine ⟨?_, ?_⟩
  · intro c e reached fails
    have fits := start.reach honest lawful reached
    refine ⟨fits.harmless honest lawful fails, ?_⟩
    intro node keyword method call
    obtain ⟨n, _, m⟩ := c
    cases call
    rw [fits.super_fails lawful fails]
    exact nofun
  · intro problems s' ran e mem
    have yes : (s.prepare source).diagnostics.isEmpty = true := List.isEmpty_iff.mpr accepted
    rw [Session.run, if_pos yes, Session.execute] at ran
    -- a run reports at most the one error that ended it
    split at ran
    · cases ran
      cases mem
    · next e' m' run =>
      cases ran
      cases List.mem_singleton.mp mem
      have harmless : ¬Defensive e.cause := start.harmless honest lawful ⟨m', run⟩
      exact ⟨harmless, fun text => (defensive_of_message text).resolve_left harmless⟩
    · cases ran

/-- An initializer that negates its instance. -/
theorem defensive_errors_are_unreachable_initializer :
    let host := Host.standard 0
    let source := "class A \x7b init() \x7b -this; \x7d \x7d A();"
    ∃ e s', Session.run host 12 source (.start host .unlimited) = some ([.fault e], s') ∧
      e.cause = .operandNotNumber ∧ ¬Defensive e.cause := by
  intro host source
  have accepted : (Session.prepare (.start host .unlimited) source).diagnostics = [] := by cbv
  have ends : (Session.run host 12 source (.start host .unlimited)).map (·.1) =
      some [.fault ⟨⟨.punctuator .minus, "-", 1⟩, .operandNotNumber⟩] := by cbv
  obtain ⟨⟨problems, s'⟩, ran, rfl⟩ := Option.map_eq_some_iff.mp ends
  exact ⟨_, s', ran, rfl, ((defensive_errors_are_unreachable (honest_standard 0)
    (.start .unlimited) accepted).2 _ s' ran _ (List.mem_singleton_self _)).1⟩

end Lox.Evaluation
