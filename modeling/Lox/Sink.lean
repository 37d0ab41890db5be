/-! # Output

  What a program prints goes into a sink, which may have room for a limited number of bytes
  only. A text that does not fit is written as far as it fits, and then refused.
-/

namespace Lox

/-- The output of a program. -/
structure Sink where
  /-- The bytes written so far. -/
  written : Array UInt8
  /-- The number of bytes the sink has room for, if that is limited. -/
  capacity : Option Nat
  /-- What the sink says when it refuses a text. -/
  refusal : String

namespace Sink

/-- An empty sink that takes everything. -/
def unlimited : Sink := ⟨#[], none, ""⟩

/-- An empty sink with room for so many bytes. -/
def limited (capacity : Nat) (refusal : String) : Sink :=
  ⟨#[], some capacity, refusal⟩

/-- The number of further bytes a sink takes, if that is limited. -/
def room (sink : Sink) : Option Nat :=
  sink.capacity.map (· - sink.written.size)

/-- Writes bytes as far as they fit, and says whether all of them did. -/
def write (sink : Sink) (bytes : Array UInt8) : Bool × Sink :=
  match sink.room with
  | none => (true, { sink with written := sink.written ++ bytes })
  | some room =>
    (bytes.size ≤ room, { sink with written := sink.written ++ bytes.extract 0 room })

/-- A sink without limit takes everything. -/
theorem write_of_unlimited {sink : Sink} (h : sink.capacity = none) (bytes : Array UInt8) :
    sink.write bytes = (true, { sink with written := sink.written ++ bytes }) := by
  simp [write, room, h]

/-- A sink with a limit keeps the bytes that fit. -/
theorem written_write_of_limited {sink : Sink} {capacity : Nat}
    (h : sink.capacity = some capacity) (bytes : Array UInt8) :
    (sink.write bytes).2.written =
      sink.written ++ bytes.extract 0 (capacity - sink.written.size) := by
  simp [write, room, h]

end Sink

end Lox
