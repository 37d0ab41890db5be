import Lox.Command.Execution
import Std.Time

/-! # The program

  Carries out the command line on the real file system. Everything that decides anything is
  in `Lox.Command`; here files are read, the log file is made, lines are fetched for the
  prompt, and reports are written out.
-/

namespace Lox.Program

/-- The seconds since the beginning of 1970, in steps of a millisecond. -/
def seconds : IO Float := do
  let now ← Std.Time.Timestamp.now
  return Float.ofInt now.toMillisecondsSinceUnixEpoch.val / 1000.0

/-- Does what calls the host, with the clock read at every call. Work that calls the host more
    often than the clock was read so far stops there; then the clock is read, and the work is
    done again with one more reading. -/
partial def onTime {α : Type} (hostCalls : α → Nat) (work : Host → Option α)
    (readings : Array Float) : IO (Option α × Array Float) := do
  match work (.known readings) with
  | none => return (none, readings)
  | some done =>
    if hostCalls done ≤ readings.size then return (some done, readings)
    else onTime hostCalls work (readings.push (← seconds))

/-- Why the system refused a file. -/
def refusalOf : IO.Error → Command.Refusal
  | .noFileOrDirectory .. => .absent
  | .inappropriateType _ code _ =>
    if code = 21 ∨ code = 0 - 21 then .directory else .notDirectory
  | e => .other (toString e)

/-- What the file system has at a path. -/
def entryAt (path : String) : IO Command.Entry := do
  try
    return .file (← IO.FS.readBinFile path).toList
  catch e =>
    match refusalOf e with
    | .directory => return .unreadable .directory
    | refusal => return .unopened refusal

/-- Writes a report out and yields its exit code. -/
def deliver (report : Command.Report) : IO UInt32 := do
  let output ← IO.getStdout
  output.write ⟨report.output⟩
  output.flush
  IO.eprint report.errors
  return report.code.toUInt32

/-- Writes what a session printed since it had printed so much. -/
def flushFrom (printed : Nat) (s : Session) : IO Unit := do
  let output ← IO.getStdout
  output.write ⟨s.machine.sink.written.extract printed s.machine.sink.written.size⟩
  output.flush

/-- The bytes of the next line, with the newline that ends it; none at the end of the
    input. -/
partial def nextLine (input : IO.FS.Stream) (line : Array UInt8) : IO (List UInt8) := do
  let bytes ← input.read 1
  if bytes.isEmpty then
    return line.toList
  else
    let line := line ++ bytes.data
    if bytes.data == #[10] then return line.toList else nextLine input line

/-- Runs the prompt until the standard input ends, with the readings of the clock so far. -/
partial def prompt (readings : Array Float) (s : Session) : IO UInt32 := do
  IO.print Command.promptText
  (← IO.getStdout).flush
  let line ← nextLine (← IO.getStdin) #[]
  if line.isEmpty then
    IO.println ""
    return Command.exitSuccess.toUInt32
  else
    match Utf8.decode line with
    | .error _ => deliver (Command.Failure.report .inputNotText #[])
    | .ok text =>
      let (done, readings) ← onTime (fun (_, next) => next.machine.hostCalls)
        (fun host => Command.runLine host Evaluation.ampleFuel text s) readings
      match done with
      | none => return Command.exitFault.toUInt32
      | some (problems, next) =>
        flushFrom s.machine.sink.written.size next
        IO.eprint (Command.unlines (Command.noticeLines problems))
        prompt readings next

/-- Carries out an action. -/
def act : Command.Action → IO UInt32
  | .prompt => prompt #[] (.start (.known #[]) .unlimited)
  | .onFile task path => do
    let entry ← entryAt path
    let (done, _) ← onTime (·.hostCalls)
      (fun host => task.reportEntry host Evaluation.ampleFuel path entry) #[]
    match done with
    | some report => deliver report
    | none => return Command.exitFault.toUInt32

/-- Makes the log file, if one is wanted. -/
def createLog : Option String → IO (Option Command.Failure)
  | none => return none
  | some path => do
    try
      IO.FS.writeFile path ""
      return none
    catch e =>
      return some (.creating path (refusalOf e))

/-- Carries out a request. -/
def perform : Command.Request → IO UInt32
  | .run action log => do
    match ← createLog log with
    | some failure => deliver (failure.report #[])
    | none => act action
  | .help => do
    IO.print Command.helpText
    return Command.exitSuccess.toUInt32
  | .version => do
    IO.println Command.versionText
    return Command.exitSuccess.toUInt32
  | .misuse => do
    IO.eprint Command.misuseText
    return Command.exitMisuse.toUInt32

end Lox.Program

/-- The command line program. -/
def main (arguments : List String) : IO UInt32 :=
  Lox.Program.perform (Lox.Command.Request.ofArguments arguments)
