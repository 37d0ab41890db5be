import Lox.Number.Reading

/-! # The fewest digits that read back

  A positive double is nearest to every real number between the midpoints to its two
  neighbours. Among the decimals in that interval the one with the fewest digits names the
  double, and of two with equally few digits the nearer. `shortest` finds it by trying
  grids of one, two, three, … digits: if any point of a grid lies in the interval then so
  does one of the two grid points next to the value.
-/

namespace Lox.Number

/-- A decimal number `digits * 10 ^ exponent`. -/
structure Decimal where
  /-- The digits, read as one whole number. -/
  digits : Nat
  /-- The power of ten they are multiplied by. -/
  exponent : Int
  deriving DecidableEq, Repr

/-- Which of two equally near decimals is taken. -/
inductive Tie where
  /-- The larger one. -/
  | up
  /-- The one whose last digit is even. -/
  | even
  deriving DecidableEq, Repr

/-- A value and the two ends of its rounding interval, over one denominator. -/
structure Interval where
  /-- Numerator of the lower end. -/
  low : Nat
  /-- Numerator of the value. -/
  value : Nat
  /-- Numerator of the upper end. -/
  high : Nat
  /-- The common denominator. -/
  denominator : Nat
  /-- Whether the ends themselves round to the value. -/
  closed : Bool

/-- The rounding interval of `significand * 2 ^ exponent`. Below a power of two the doubles
    lie twice as dense, so there the lower end is at half the distance. -/
def Interval.of (significand : Nat) (exponent : Int) : Interval :=
  let below := if significand = Nat.pow 2 52 ∧ -1074 < exponent then 1 else 2
  let scale := Nat.pow 2 (exponent - 2).toNat
  { low := (4 * significand - below) * scale
    value := 4 * significand * scale
    high := (4 * significand + 2) * scale
    denominator := Nat.pow 2 (2 - exponent).toNat
    closed := significand % 2 = 0 }

/-- Whether `numerator / denominator` rounds to the value of the interval. -/
def Interval.holds (i : Interval) (numerator : Nat) : Bool :=
  if i.closed then i.low ≤ numerator ∧ numerator ≤ i.high
  else i.low < numerator ∧ numerator < i.high

/-- The least `j ≤ bound` with `denominator ≤ numerator * 10 ^ j`. -/
def leadingShift (numerator denominator : Nat) : Nat → Nat
  | 0 => 0
  | bound + 1 =>
    if denominator ≤ numerator then 0
    else leadingShift (numerator * 10) denominator bound + 1

/-- The power of ten just above a positive value: `10 ^ (p - 1) ≤ value < 10 ^ p`. -/
def Interval.magnitude (i : Interval) : Int :=
  if i.denominator ≤ i.value then (toString (i.value / i.denominator)).length
  else 1 - (leadingShift i.value i.denominator 400 : Nat)

/-- The point of the grid of multiples of `10 ^ exponent` that lies in the interval and is
    nearest to its value, if there is one. -/
def Interval.nearest? (i : Interval) (tie : Tie) (exponent : Int) : Option Decimal :=
  let fine := Nat.pow 10 (-exponent).toNat
  let i := { i with low := i.low * fine, value := i.value * fine, high := i.high * fine }
  let step := i.denominator * Nat.pow 10 exponent.toNat
  let floor := i.value / step
  let ceiling := floor + 1
  let nearer :=
    match compare (2 * i.value) ((floor + ceiling) * step), tie with
    | .gt, _ => ceiling
    | .lt, _ => floor
    | .eq, .up => ceiling
    | .eq, .even => if floor % 2 = 0 then floor else ceiling
  match i.holds (floor * step), i.holds (ceiling * step) with
  | true, true => some ⟨nearer, exponent⟩
  | true, false => some ⟨floor, exponent⟩
  | false, true => some ⟨ceiling, exponent⟩
  | false, false => none

/-- Tries grids of `count`, `count + 1`, … digits, at most `attempts` of them. -/
def Interval.search (i : Interval) (tie : Tie) (count : Nat) : Nat → Option Decimal
  | 0 => none
  | attempts + 1 =>
    match i.nearest? tie (i.magnitude - count) with
    | some d => some d
    | none => i.search tie (count + 1) attempts

/-- Moves the zeros that end the digits, at most `bound` of them, into the exponent. -/
def Decimal.stripZeros : Nat → Decimal → Decimal
  | 0, d => d
  | bound + 1, d =>
    if d.digits ≠ 0 ∧ d.digits % 10 = 0 then
      stripZeros bound ⟨d.digits / 10, d.exponent + 1⟩
    else d

/-- The shortest decimal that reads back as `significand * 2 ^ exponent`. Seventeen digits
    always suffice. -/
def shortest (tie : Tie) (significand : Nat) (exponent : Int) : Decimal :=
  if significand = 0 then ⟨0, 0⟩
  else
    match (Interval.of significand exponent).search tie 1 17 with
    | some d => d.stripZeros 17
    | none => ⟨0, 0⟩

end Lox.Number
