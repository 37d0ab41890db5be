import Lox.Text.Quoted
import Lox.Text.Utf8

/-! # What a command leaves behind

  An exit code, what was written on the two outputs, and the reasons for which files cannot
  be used.
-/

namespace Lox.Command

/-! ### Exit codes -/

/-- All went well. -/
def exitSuccess : Nat := 0

/-- A file or the standard input could not be used. -/
def exitFailure : Nat := 1

/-- The command line made no sense. -/
def exitMisuse : Nat := 64

/-- The source text was refused. -/
def exitRefused : Nat := 65

/-- The program stopped with an error. -/
def exitFault : Nat := 70

/-! ### Reports -/

/-- What a command wrote, and its exit code. -/
structure Report where
  /-- The exit code. -/
  code : Nat
  /-- The standard output. -/
  output : Array UInt8
  /-- The error output. -/
  errors : String
  /-- The calls that were made of the host. -/
  hostCalls : Nat

/-- Every text on a line of its own. -/
def unlines (lines : List String) : String :=
  String.join (lines.map (· ++ "\n"))

/-- A report with lines of text on the outputs, made without the host. -/
def Report.ofLines (code : Nat) (output errors : List String) : Report :=
  ⟨code, (unlines output).toUTF8.data, unlines errors, 0⟩

/-! ### Failures -/

/-- Why the system refuses a file. -/
inductive Refusal where
  /-- There is no such file, or no such directory on the way to it. -/
  | absent
  /-- Something on the way to it is no directory. -/
  | notDirectory
  /-- It is a directory. -/
  | directory
  /-- Any other reason. -/
  | other (reason : String)
  deriving DecidableEq, Repr

/-- What the system says about a refusal. -/
def Refusal.message : Refusal → String
  | absent => "No such file or directory (os error 2)"
  | notDirectory => "Not a directory (os error 20)"
  | directory => "Is a directory (os error 21)"
  | other reason => reason

/-- Why a command could not do its work. -/
inductive Failure where
  /-- A file cannot be opened. -/
  | opening (path : String) (refusal : Refusal)
  /-- A file was opened but cannot be read. -/
  | reading (path : String) (refusal : Refusal)
  /-- A file is no text. -/
  | notText (path : String) (failure : Utf8.Failure)
  /-- The log file cannot be made. -/
  | creating (path : String) (refusal : Refusal)
  /-- A line of the standard input is no text. -/
  | inputNotText
  deriving DecidableEq, Repr

/-- What could not be done. -/
def Failure.context : Failure → String
  | opening path _ => "Failed to open file " ++ Quoted.path path
  | reading path _ => "Failed to read file " ++ Quoted.path path
  | notText path _ => "File " ++ Quoted.path path ++ " is not valid UTF-8"
  | creating path _ => "Failed to create " ++ Quoted.path path
  | inputNotText => "Failed to read from stdin"

/-- Why it could not be done. -/
def Failure.reason : Failure → String
  | opening _ refusal => refusal.message
  | reading _ refusal => refusal.message
  | notText _ failure => failure.message
  | creating _ refusal => refusal.message
  | inputNotText => "stream did not contain valid UTF-8"

/-- A failure as it is written on the error output. -/
def Failure.text (f : Failure) : String :=
  "Error: " ++ f.context ++ "\n\nCaused by:\n    " ++ f.reason ++ "\n"

/-- The report of a command that failed after writing some output. -/
def Failure.report (f : Failure) (output : Array UInt8) : Report :=
  ⟨exitFailure, output, f.text, 0⟩

end Lox.Command
