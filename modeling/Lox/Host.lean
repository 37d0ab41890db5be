import Lox.Value

/-! # The host

  Functions that a program may call but that are not written in the language. What a host
  function answers depends on its arguments and on when it is called, which is told by the
  number of calls that were made of the host before; it sees nothing else of the program, and
  fails with a message.
-/

namespace Lox

/-- What the host has to say to arguments: an answer for each number of calls before. -/
abbrev Answer := Nat → Except String Value

namespace Answer

/-- The same value at all times. -/
def ok (value : Value) : Answer := fun _ => .ok value

/-- The same failure at all times. -/
def error (message : String) : Answer := fun _ => .error message

end Answer

/-- A function of the host. -/
structure HostFunction where
  /-- Its name and arity. -/
  native : Native
  /-- What it does with its arguments. -/
  apply : List Value → Answer

/-- The functions that a program finds when it starts. -/
abbrev Host := List HostFunction

namespace Host

/-- The clock, which is read anew at every call: the seconds since the beginning of 1970. It
    fails where it was not read. -/
def clock (reading : Nat → Option Float) : HostFunction :=
  ⟨⟨"clock", 0⟩, fun _ earlier =>
    match reading earlier with
    | some seconds => .ok (.number seconds)
    | none => .error "The clock was not read."⟩

/-- The functions that every program finds, with what the clock shows at each call. -/
def timed (reading : Nat → Option Float) : Host :=
  [clock reading]

/-- The functions that every program finds, when the clock was read so often. -/
def known (readings : Array Float) : Host :=
  timed fun earlier => readings[earlier]?

/-- The functions that every program finds, at one fixed time. -/
def standard (seconds : Float) : Host :=
  timed fun _ => some seconds

/-- Calls a function of the host after so many earlier calls. -/
def call (host : Host) (called : Native) (arguments : List Value) (earlier : Nat) :
    Except String Value :=
  match host.find? (·.native = called) with
  | some f => f.apply arguments earlier
  | none => .error ("Unknown host function '" ++ called.name ++ "'.")

end Host

end Lox
