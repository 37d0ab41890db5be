import Lox.Diagnostic
import Lox.RuntimeError
import Lox.Text.Utf8

/-! # Problems

  All that can go wrong from reading a source text to running it, and what is told about it.
-/

namespace Lox

/-- Something that went wrong. -/
inductive Problem where
  /-- The source text was refused. -/
  | refused (diagnostic : Diagnostic)
  /-- The program stopped. -/
  | fault (error : RuntimeError)
  /-- The source text could not be obtained. -/
  | unreadable (message : String)
  /-- The source is no text. -/
  | notText (failure : Utf8.Failure)
  deriving DecidableEq, Repr

namespace Problem

/-- The problem as text. -/
def text : Problem → String
  | refused d => d.text
  | fault e => e.text
  | unreadable message => message
  | notText failure => failure.message

/-- Whether the problem kept the program from running at all. -/
def isCompileTime : Problem → Bool
  | refused _ => true
  | _ => false

end Problem

/-- What is told about a problem. -/
inductive Notice where
  /-- A complaint with the line, the place on it and a message. -/
  | complaint (line : Nat) (place : Place) (message : String)
  /-- A runtime error. -/
  | fault (error : RuntimeError)
  deriving DecidableEq, Repr

/-- What is told about a problem. One that has no line is told with line zero. -/
def Problem.notice : Problem → Notice
  | refused d => .complaint d.line d.place d.message
  | fault e => .fault e
  | unreadable message => .complaint 0 .unmarked message
  | notText failure => .complaint 0 .unmarked failure.message

/-- A notice as it is written on the error output. -/
def Notice.text : Notice → String
  | complaint line place message => complaintText line place message
  | fault e => e.text

end Lox
