/-! # Names and what they stand for

  A finite table from names to values. It keeps the order in which names were first given a
  value; giving a name another value leaves it in its place.
-/

namespace Lox

/-- A table of names. -/
structure Bindings (α : Type) where
  /-- The names with their values, each name once. -/
  entries : List (String × α)
  deriving Repr

namespace Bindings

variable {α : Type}

/-- The table without names. -/
def empty : Bindings α := ⟨[]⟩

/-- The value of the first entry for a name. -/
def lookIn (name : String) : List (String × α) → Option α
  | [] => none
  | (key, value) :: rest => if name = key then some value else lookIn name rest

/-- The value of a name. -/
def get? (b : Bindings α) (name : String) : Option α :=
  lookIn name b.entries

/-- Whether a name has a value. -/
def contains (b : Bindings α) (name : String) : Bool :=
  (b.get? name).isSome

/-- The names that have a value. -/
def names (b : Bindings α) : List String :=
  b.entries.map (·.1)

/-- Replaces the value of a name, or adds the name at the end. -/
def setIn (name : String) (value : α) : List (String × α) → List (String × α)
  | [] => [(name, value)]
  | (key, old) :: rest =>
    if name = key then (name, value) :: rest else (key, old) :: setIn name value rest

/-- Gives a name a value. -/
def set (b : Bindings α) (name : String) (value : α) : Bindings α :=
  ⟨setIn name value b.entries⟩

/-- The table with one name. -/
def single (name : String) (value : α) : Bindings α :=
  empty.set name value

/-! ### Laws -/

@[simp] theorem get?_empty (name : String) : (empty : Bindings α).get? name = none := rfl

theorem lookIn_setIn (name other : String) (value : α) (entries : List (String × α)) :
    lookIn other (setIn name value entries) =
      if other = name then some value else lookIn other entries := by
  induction entries with
  | nil => rfl
  | cons entry rest ih => grind [setIn, lookIn]

/-- A name has the value it was given last. -/
@[simp] theorem get?_set_self (b : Bindings α) (name : String) (value : α) :
    (b.set name value).get? name = some value := by
  simp [set, get?, lookIn_setIn]

/-- Giving one name a value leaves the others alone. -/
theorem get?_set_of_ne (b : Bindings α) {name other : String} (value : α)
    (h : other ≠ name) : (b.set name value).get? other = b.get? other := by
  simp [set, get?, lookIn_setIn, h]

end Bindings

end Lox
