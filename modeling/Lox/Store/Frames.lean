import Lox.Value

/-! # Frames and scopes

  Each scope that a program enters has a frame for its own names. A scope is the list of
  frames in view from it, innermost first; scopes that share a frame see each other's writes
  to it. A name is reached in one of two ways: by walking outwards to the first frame that
  has it, or by going out a known number of frames and looking only there.
-/

namespace Lox

/-- The frames made so far. -/
structure Frames (α : Type) where
  /-- The names of each frame. -/
  records : Array (Bindings α)

namespace Frames

variable {α : Type}

/-- No frames. -/
def empty : Frames α := ⟨#[]⟩

/-- The value of a name in one frame. -/
def lookup? (frames : Frames α) (frame : FrameId) (name : String) : Option α :=
  frames.records[frame]?.bind (·.get? name)

/-- Gives a name a value in one frame. -/
def put (frames : Frames α) (frame : FrameId) (name : String) (value : α) : Frames α :=
  ⟨frames.records.modify frame (·.set name value)⟩

/-- Makes a new frame with the given names inside a scope. -/
def child (frames : Frames α) (outer : Scope) (names : Bindings α) : Scope × Frames α :=
  (frames.records.size :: outer, ⟨frames.records.push names⟩)

/-- Gives a name a value in the innermost frame of a scope. -/
def define (frames : Frames α) (scope : Scope) (name : String) (value : α) : Frames α :=
  match scope with
  | [] => frames
  | frame :: _ => frames.put frame name value

/-- A frame shows the value that was put into it last. -/
theorem lookup?_put_self (frames : Frames α) {frame : FrameId} (name : String) (value : α)
    (h : frame < frames.records.size) :
    (frames.put frame name value).lookup? frame name = some value := by
  rw [lookup?, put, Array.getElem?_modify, if_pos rfl, Array.getElem?_eq_getElem h]
  exact Bindings.get?_set_self _ _ _

/-- Putting a value under one name leaves the other names alone. -/
theorem lookup?_put_of_name_ne (frames : Frames α) (frame target : FrameId)
    {name other : String} (value : α) (h : other ≠ name) :
    (frames.put target name value).lookup? frame other = frames.lookup? frame other := by
  rw [lookup?, put, Array.getElem?_modify]
  by_cases same : target = frame
  · rw [if_pos same, lookup?]
    cases frames.records[frame]? with
    | none => rfl
    | some record => exact record.get?_set_of_ne value h
  · rw [if_neg same, lookup?]

/-- Putting a value into one frame leaves the other frames alone. -/
theorem lookup?_put_of_frame_ne (frames : Frames α) {frame target : FrameId}
    (name other : String) (value : α) (h : target ≠ frame) :
    (frames.put target name value).lookup? frame other = frames.lookup? frame other := by
  rw [lookup?, put, Array.getElem?_modify, if_neg h, lookup?]

/-! ### By name -/

/-- The first frame of a scope that has a name. -/
def find? (frames : Frames α) (scope : Scope) (name : String) : Option FrameId :=
  scope.find? fun frame => (frames.lookup? frame name).isSome

/-- The value of a name in the first frame that has it. -/
def get? (frames : Frames α) (scope : Scope) (name : String) : Option α :=
  scope.findSome? fun frame => frames.lookup? frame name

/-- Gives a name a new value in the first frame that has it. -/
def assign? (frames : Frames α) (scope : Scope) (name : String) (value : α) :
    Option (Frames α) :=
  match frames.find? scope name with
  | some frame => some (frames.put frame name value)
  | none => none

/-! ### By distance -/

/-- The scope a number of frames further out; the outermost frame is never left. -/
def ancestor : Scope → Nat → Scope
  | _ :: frame :: outer, distance + 1 => ancestor (frame :: outer) distance
  | scope, _ => scope

/-- The value of a name in the frame at a distance. -/
def getAt? (frames : Frames α) (scope : Scope) (distance : Nat) (name : String) :
    Option α :=
  match ancestor scope distance with
  | frame :: _ => frames.lookup? frame name
  | [] => none

/-- The frame at a distance, if it has a name. -/
def findAt? (frames : Frames α) (scope : Scope) (distance : Nat) (name : String) :
    Option FrameId :=
  match ancestor scope distance with
  | frame :: _ => if (frames.lookup? frame name).isSome then some frame else none
  | [] => none

/-- Gives a name a new value in the frame at a distance, if it has one there. -/
def assignAt? (frames : Frames α) (scope : Scope) (distance : Nat) (name : String)
    (value : α) : Option (Frames α) :=
  match frames.findAt? scope distance name with
  | some frame => some (frames.put frame name value)
  | none => none

end Frames

end Lox
