/-! # Command lines

  A command line asks for a script to be run, for the interactive prompt, or for one of three
  tools on a file; or for help, or for the version. Options may stand on either side of a
  file, and a tool is named by the first argument only. Reading goes from left to right, and
  the first argument that asks for help, asks for the version or makes no sense decides.
-/

namespace Lox.Command

/-- What can be done with a single file besides running it. -/
inductive Tool where
  /-- Lists its tokens. -/
  | tokenize
  /-- Shows the expression it holds. -/
  | parse
  /-- Shows the value of the expression it holds. -/
  | evaluate
  deriving DecidableEq, Repr

/-- The tool of a name. -/
def Tool.ofName? : String → Option Tool
  | "tokenize" => some .tokenize
  | "parse" => some .parse
  | "evaluate" => some .evaluate
  | _ => none

/-- What is done with a source file. -/
inductive Task where
  /-- Runs it. -/
  | script
  /-- Lists its tokens, as text or as JSON. -/
  | tokenize (json : Bool)
  /-- Shows the expression it holds. -/
  | parse
  /-- Shows the value of the expression it holds. -/
  | evaluate
  deriving DecidableEq, Repr

/-- What a command line wants done. -/
inductive Action where
  /-- Runs one line of the standard input after another. -/
  | prompt
  /-- Works on a file. -/
  | onFile (task : Task) (path : String)
  deriving DecidableEq, Repr

/-- What a command line asks for. -/
inductive Request where
  /-- An action, with a log in the given file if there is one. -/
  | run (action : Action) (log : Option String)
  /-- An explanation of the command line. -/
  | help
  /-- The version. -/
  | version
  /-- Nothing that makes sense. -/
  | misuse
  deriving DecidableEq, Repr

/-- The log file if no other is named. -/
def defaultLog : String := "rox.log"

/-! ### Arguments by their form -/

/-- An argument. -/
inductive Argument where
  /-- Two hyphens alone: only files follow. -/
  | terminator
  /-- A named option, with the value attached to it by an equals sign. -/
  | long (name : String) (value : Option String)
  /-- Letters after one hyphen, of which the first counts. -/
  | short (letter : Char)
  /-- A file, a tool or the value of an option. -/
  | operand (text : String)
  deriving DecidableEq, Repr

/-- The form of an argument. A hyphen alone is an operand. -/
def Argument.ofText (text : String) : Argument :=
  match text.toList with
  | ['-', '-'] => .terminator
  | '-' :: '-' :: rest =>
    let name := String.ofList (rest.takeWhile (· != '='))
    match rest.dropWhile (· != '=') with
    | [] => .long name none
    | _ :: value => .long name (some (String.ofList value))
  | '-' :: letter :: _ => .short letter
  | _ => .operand text

/-! ### Reading a command line -/

/-- What has been gathered from the arguments so far. -/
structure Gathered where
  /-- Whether a log is wanted. -/
  log : Bool := false
  /-- The file for the log. -/
  logFile : Option String := none
  /-- Whether tokens are wanted as JSON. -/
  json : Bool := false
  /-- The file to work on. -/
  file : Option String := none

/-- The task of a tool, or of running a script. -/
def Gathered.task (g : Gathered) : Option Tool → Task
  | none => .script
  | some .tokenize => .tokenize g.json
  | some .parse => .parse
  | some .evaluate => .evaluate

/-- The request made of what was gathered for a tool, or for running a script. A tool needs a
    file; without a tool and a file the prompt is wanted. -/
def Gathered.request (g : Gathered) (tool : Option Tool) : Request :=
  let log := if g.log then some (g.logFile.getD defaultLog) else none
  match g.file with
  | some path => .run (.onFile (g.task tool) path) log
  | none => if tool.isNone then .run .prompt log else .misuse

/-- Takes a file. A second one, or an empty name, makes no sense. -/
def Gathered.withFile? (g : Gathered) (path : String) : Option Gathered :=
  if g.file.isSome || path.isEmpty then none else some { g with file := some path }

/-- Takes the file for the log, in the same way. -/
def Gathered.withLogFile? (g : Gathered) (path : String) : Option Gathered :=
  if g.logFile.isSome || path.isEmpty then none else some { g with logFile := some path }

/-- Takes an option without a value. An option that is given twice makes no sense, nor does
    one that does not belong to the tool. -/
def Gathered.withFlag? (g : Gathered) (tool : Option Tool) (name : String) :
    Option Gathered :=
  match name with
  | "log" => if g.log then none else some { g with log := true }
  | "json" => if g.json || tool ≠ some .tokenize then none else some { g with json := true }
  | _ => none

/-- The file named by an argument that stands for the value of an option. -/
def operandOf? (text : String) : Option String :=
  match Argument.ofText text with
  | .operand path => some path
  | _ => none

/-- Reads the files after two hyphens. -/
def readFiles (tool : Option Tool) (g : Gathered) : List String → Request
  | [] => g.request tool
  | path :: rest =>
    match g.withFile? path with
    | some g => readFiles tool g rest
    | none => .misuse

/-- Reads the arguments of a tool, or those for running a script. -/
def readArguments (tool : Option Tool) (g : Gathered) : List String → Request
  | [] => g.request tool
  | text :: rest =>
    match Argument.ofText text with
    | .terminator => readFiles tool g rest
    | .operand path =>
      match g.withFile? path with
      | some g => readArguments tool g rest
      | none => .misuse
    | .short 'h' => .help
    | .short 'V' => if tool.isNone then .version else .misuse
    | .short _ => .misuse
    | .long "help" none => .help
    | .long "version" none => if tool.isNone then .version else .misuse
    | .long "log-file" (some path) =>
      match g.withLogFile? path with
      | some g => readArguments tool g rest
      | none => .misuse
    | .long "log-file" none =>
      match rest with
      | [] => .misuse
      | value :: rest' =>
        match (operandOf? value).bind g.withLogFile? with
        | some g => readArguments tool g rest'
        | none => .misuse
    | .long name none =>
      match g.withFlag? tool name with
      | some g => readArguments tool g rest
      | none => .misuse
    | .long _ (some _) => .misuse

/-- Whether help can be given on these topics: at most one, which is a tool or help
    itself. -/
def hasHelp : List String → Bool
  | [] => true
  | [topic] => (Tool.ofName? topic).isSome || topic == "help"
  | _ => false

/-- What a command line asks for. -/
def Request.ofArguments : List String → Request
  | [] => .run .prompt none
  | first :: rest =>
    if first == "help" then
      if hasHelp rest then .help else .misuse
    else
      match Tool.ofName? first with
      | some tool => readArguments (some tool) {} rest
      | none => readArguments none {} (first :: rest)

end Lox.Command
