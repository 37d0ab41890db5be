import Lox.Command.Arguments
import Lox.Command.Directory
import Lox.Session
import Lox.Syntax.PrefixForm
import Lox.Token.Rendering

/-! # Commands

  What each command does with its source text, and how a whole command line is carried out
  in a directory. A log file is made before the source text is looked at.
-/

namespace Lox.Command

/-! ### Source texts -/

/-- The text found at a path. -/
def sourceOf (path : String) : Entry → Except Failure String
  | .unopened refusal => .error (.opening path refusal)
  | .unreadable refusal => .error (.reading path refusal)
  | .file bytes =>
    match Utf8.decode bytes with
    | .ok source => .ok source
    | .error failure => .error (.notText path failure)

/-! ### Tools -/

/-- Lists the tokens of a text; its lexical errors go to the error output. -/
def tokenizeReport (json : Bool) (source : String) : Report :=
  let errors := Lexical.errors source
  .ofLines (if errors.isEmpty then exitSuccess else exitRefused)
    ((Lexical.tokens source).map fun t => if json then t.json else t.text)
    (errors.map (·.diagnostic.text))

/-- Reads a text as one expression, or reports all its errors. -/
def singleExpression (source : String) : Except Report Expr :=
  let reading := Grammar.readExpression 0 (Lexical.tokens source)
  let refused := (Lexical.errors source).map (·.diagnostic) ++ reading.diagnostics
  match reading.value, refused with
  | some e, [] => .ok e
  | _, _ => .error (.ofLines exitRefused [] (refused.map (·.text)))

/-- Shows the expression in a text. -/
def parseReport (source : String) : Report :=
  match singleExpression source with
  | .ok e => .ofLines exitSuccess [e.prefixForm] []
  | .error report => report

/-- Shows the value of the expression in a text, in which every name is global. -/
def evaluateReport (host : Host) (fuel : Nat) (source : String) : Option Report :=
  match singleExpression source with
  | .error report => some report
  | .ok e =>
    match Evaluation.evaluate host fuel e (.start host .unlimited) with
    | .ok value m => some { Report.ofLines exitSuccess [value.text] [] with
        hostCalls := m.hostCalls }
    | .error (.fault e) m => some { Report.ofLines exitFault [] [e.text] with
        hostCalls := m.hostCalls }
    | .error .starved _ => none

/-! ### Scripts -/

/-- The lines that tell of problems. -/
def noticeLines (problems : List Problem) : List String :=
  problems.map (·.notice.text)

/-- The exit code after a script. -/
def exitCode (s : Session) : Nat :=
  if s.hadError then exitRefused
  else if s.hadRuntimeError then exitFault
  else exitSuccess

/-- Runs a text as a script. -/
def scriptReport (host : Host) (fuel : Nat) (source : String) : Option Report :=
  match (Session.start host .unlimited).run host fuel source with
  | some (problems, s) =>
    some ⟨exitCode s, s.machine.sink.written, unlines (noticeLines problems),
      s.machine.hostCalls⟩
  | none => none

/-! ### The prompt -/

/-- What the prompt writes before each line. -/
def promptText : String := "> "

/-- Writes a text on the output of a session. -/
def say (s : Session) (text : String) : Session :=
  { s with machine := { s.machine with sink := (s.machine.sink.write text.toUTF8.data).2 } }

/-- Cuts bytes into lines, each with the newline that ends it. -/
def byteLines : List UInt8 → List (List UInt8)
  | [] => []
  | byte :: rest =>
    if byte = 10 then [byte] :: byteLines rest
    else
      match byteLines rest with
      | [] => [[byte]]
      | line :: lines => (byte :: line) :: lines

/-- A line without its end: a newline, with a carriage return before it if there is one. -/
def trimLineEnd (line : String) : String :=
  match line.toList.reverse with
  | '\n' :: '\r' :: rest => String.ofList rest.reverse
  | '\n' :: rest => String.ofList rest.reverse
  | _ => line

/-- Runs one line of the prompt. The next line starts with a clean slate. -/
def runLine (host : Host) (fuel : Nat) (line : String) (s : Session) :
    Option (List Problem × Session) :=
  (s.run host fuel (trimLineEnd line)).map fun (problems, s) => (problems, s.clearFlags)

/-- Runs one line after another; `told` is what was written on the error output so far. -/
def promptReport (host : Host) (fuel : Nat) (told : List String) (s : Session) :
    List (List UInt8) → Option Report
  | [] =>
    let s := say (say s promptText) "\n"
    some ⟨exitSuccess, s.machine.sink.written, unlines told, s.machine.hostCalls⟩
  | line :: rest =>
    let s := say s promptText
    match Utf8.decode line with
    | .error _ =>
      let failure := Failure.report .inputNotText s.machine.sink.written
      some { failure with
        errors := unlines told ++ failure.errors
        hostCalls := s.machine.hostCalls }
    | .ok text =>
      match runLine host fuel text s with
      | some (problems, s) =>
        promptReport host fuel (told ++ noticeLines problems) s rest
      | none => none

/-! ### Whole command lines -/

/-- The version, as the command line shows it. -/
def versionText : String := "rox 0.1.0"

/-- The explanation of the command line. -/
def helpText : String :=
  unlines
    ["Lox language interpreter",
     "",
     "Usage: rox [OPTIONS] [SCRIPT]",
     "       rox <COMMAND>",
     "",
     "Commands:",
     "  tokenize  Tokenizes input from a file, printing each token",
     "  parse     Parses input from a file as a single expression and prints its AST",
     "  evaluate  Evaluates input from a file as a single expression and prints the result",
     "  help      Print this message or the help of the given subcommand(s)",
     "",
     "Arguments:",
     "  [SCRIPT]  Script to run; starts an interactive prompt when omitted",
     "",
     "Options:",
     "      --log                  Enable logging to a file",
     "      --log-file <LOG_FILE>  Log file written when --log is set [default: rox.log]",
     "  -h, --help                 Print help",
     "  -V, --version              Print version"]

/-- The hint that a command line made no sense. -/
def misuseText : String :=
  unlines ["error: invalid command line", "", "For more information, try '--help'."]

/-- Carries out a task on its source text. -/
def Task.report (host : Host) (fuel : Nat) (source : String) : Task → Option Report
  | .script => scriptReport host fuel source
  | .tokenize json => some (tokenizeReport json source)
  | .parse => some (parseReport source)
  | .evaluate => evaluateReport host fuel source

/-- Carries out a task on what was found at a path. -/
def Task.reportEntry (host : Host) (fuel : Nat) (path : String) (entry : Entry)
    (task : Task) : Option Report :=
  match sourceOf path entry with
  | .ok source => task.report host fuel source
  | .error failure => some (failure.report #[])

/-- Carries out an action in a directory with the given standard input. -/
def Action.perform (host : Host) (fuel : Nat) (d : Directory) (input : List UInt8) :
    Action → Option Report
  | .prompt => promptReport host fuel [] (.start host .unlimited) (byteLines input)
  | .onFile task path => task.reportEntry host fuel path (d.entry path)

/-- Carries out a request: the report, and the directory with the log file, if one was
    made. -/
def Request.perform (host : Host) (fuel : Nat) (d : Directory) (input : List UInt8) :
    Request → Option (Report × Directory)
  | .help => some (⟨exitSuccess, helpText.toUTF8.data, "", 0⟩, d)
  | .version => some (.ofLines exitSuccess [versionText] [], d)
  | .misuse => some (⟨exitMisuse, #[], misuseText, 0⟩, d)
  | .run action none => (action.perform host fuel d input).map (·, d)
  | .run action (some log) =>
    match d.create log with
    | .ok d => (action.perform host fuel d input).map (·, d)
    | .error refusal => some (Failure.report (.creating log refusal) #[], d)

end Lox.Command
