import Lox.Binding.Resolution
import Lox.Evaluation.Evaluator
import Lox.Grammar.Reading
import Lox.Lexical.Stream
import Lox.Problem

/-! # Sessions

  A session runs one source text after another on the same machine. A text with any lexical,
  syntax or binding error is not run at all; a runtime error ends the run of its text, and
  what ran before it stays done.
-/

namespace Lox

/-- Notes the distances that were found for the references of a program. -/
def Machine.noteReferences (m : Machine) (references : List Binding.Reference) : Machine :=
  references.foldl
    (fun m r =>
      match r.hops with
      | some distance => m.noteHops r.node distance
      | none => m)
    m

/-- A machine with the history that its next run needs. -/
structure Session where
  /-- The machine. -/
  machine : Machine
  /-- The first identity that no node has. -/
  fresh : NodeId
  /-- Whether a source text was refused since the flags were last cleared. -/
  hadError : Bool
  /-- Whether a program stopped with an error since the flags were last cleared. -/
  hadRuntimeError : Bool

namespace Session

/-- A session on a fresh machine. -/
def start (host : Host) (sink : Sink) : Session :=
  { machine := .start host sink, fresh := 0, hadError := false, hadRuntimeError := false }

/-- Clears both flags. -/
def clearFlags (s : Session) : Session :=
  { s with hadError := false, hadRuntimeError := false }

/-- A source text made ready to run. -/
structure Prepared where
  /-- What speaks against running it. -/
  diagnostics : List Diagnostic
  /-- Its statements. -/
  program : List Stmt
  /-- The session, with the distances of its references noted. -/
  session : Session

/-- Reads a source text and relates its names to their declarations. Binding errors are
    looked for only in a text without other errors. -/
def prepare (s : Session) (source : String) : Prepared :=
  let reading := Grammar.readProgram s.fresh (Lexical.tokens source)
  let s := { s with fresh := reading.fresh }
  let refused := (Lexical.errors source).map (·.diagnostic) ++ reading.diagnostics
  if refused.isEmpty then
    let findings := Binding.resolve reading.value
    { diagnostics := findings.diagnostics
      program := reading.value
      session := { s with machine := s.machine.noteReferences findings.references } }
  else
    { diagnostics := refused, program := [], session := s }

/-- Runs a program and says whether it stopped with an error; none if the fuel did not
    last. -/
def execute (host : Host) (fuel : Nat) (program : List Stmt) (s : Session) :
    Option (List Problem × Session) :=
  match Evaluation.interpret host fuel program s.machine with
  | .ok () m => some ([], { s with machine := m })
  | .error (.fault e) m => some ([.fault e], { s with machine := m, hadRuntimeError := true })
  | .error .starved _ => none

/-- Runs a source text, if nothing speaks against it. -/
def run (host : Host) (fuel : Nat) (source : String) (s : Session) :
    Option (List Problem × Session) :=
  let prepared := s.prepare source
  if prepared.diagnostics.isEmpty then
    execute host fuel prepared.program prepared.session
  else
    some (prepared.diagnostics.map .refused, { prepared.session with hadError := true })

end Session

end Lox
