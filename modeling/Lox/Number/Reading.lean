/-! # Doubles as exact numbers

  A double is a sign, a significand and a power of two. Every text of a number in this
  library is computed from that reading in exact arithmetic, so none of it depends on how
  the machine rounds while printing.
-/

namespace Lox.Number

/-- What a double stands for. -/
inductive Reading where
  /-- Not a number. -/
  | undefined
  /-- An infinity, negative or not. -/
  | infinite (negative : Bool)
  /-- `± significand * 2 ^ exponent`; a zero keeps its sign. -/
  | finite (negative : Bool) (significand : Nat) (exponent : Int)
  deriving DecidableEq, Repr

/-- Reads the sign, the eleven exponent bits and the fraction of a double. -/
def read (x : Float) : Reading :=
  let bits := x.toBits.toNat
  let negative := bits / Nat.pow 2 63 == 1
  let biased : Nat := bits / Nat.pow 2 52 % Nat.pow 2 11
  let fraction := bits % Nat.pow 2 52
  if biased = 2047 then
    if fraction = 0 then .infinite negative else .undefined
  else if biased = 0 then
    .finite negative fraction (-1074)
  else
    .finite negative (Nat.pow 2 52 + fraction) ((biased : Int) - 1075)

/-- A whole number with its sign, so that the two zeros stay apart. -/
structure Whole where
  /-- Whether a minus sign belongs to it. -/
  negative : Bool
  /-- The number without its sign. -/
  magnitude : Nat
  deriving DecidableEq, Repr

/-- `significand * 2 ^ exponent`, when that is a whole number. -/
def wholeMagnitude? (significand : Nat) (exponent : Int) : Option Nat :=
  match exponent with
  | .ofNat e => some (significand * Nat.pow 2 e)
  | .negSucc e =>
    let divisor := Nat.pow 2 (e + 1)
    if significand % divisor = 0 then some (significand / divisor) else none

/-- The exact value of a double that has no fractional part. -/
def whole? (x : Float) : Option Whole :=
  match read x with
  | .finite negative significand exponent =>
    (wholeMagnitude? significand exponent).map (⟨negative, ·⟩)
  | _ => none

/-- The sign as it is written. -/
def signText (negative : Bool) : String :=
  if negative then "-" else ""

/-- All digits of a whole number, after its sign. -/
def Whole.text (w : Whole) : String :=
  signText w.negative ++ toString w.magnitude

end Lox.Number
