import Lox.Number.Shortest

/-! # Numbers as text

  Three ways to write a double: every digit in place (`plain`), every digit of an exact
  whole number (`Whole.text`), and the JSON form, which changes to scientific notation far
  from one. Reading goes the other way: `ofDecimal` rounds a decimal to the nearest double.
-/

namespace Lox.Number

/-- A run of zeros. -/
def zeros (n : Nat) : String :=
  String.ofList (List.replicate n '0')

/-- The digits of a decimal and the place of its point, counted from the first digit. -/
def Decimal.digitsAndPoint (d : Decimal) : List Char × Int :=
  let digits := (toString d.digits).toList
  (digits, digits.length + d.exponent)

/-- Every digit in place, padded with zeros on either side of the point; no point in a
    whole number. -/
def Decimal.positional (d : Decimal) : String :=
  let (digits, point) := d.digitsAndPoint
  if point ≤ 0 then
    "0." ++ zeros (-point).toNat ++ String.ofList digits
  else if digits.length ≤ point then
    String.ofList digits ++ zeros (point - digits.length).toNat
  else
    String.ofList (digits.take point.toNat) ++ "." ++ String.ofList (digits.drop point.toNat)

/-- One digit before the point and a signed power of ten after the digits. -/
def Decimal.scientific (d : Decimal) : String :=
  let (digits, point) := d.digitsAndPoint
  let head := String.ofList (digits.take 1)
  let tail := digits.drop 1
  let power := point - 1
  let mark := if power < 0 then "e-" else "e+"
  head ++ (if tail.isEmpty then "" else "." ++ String.ofList tail) ++ mark ++
    toString power.natAbs

/-- The shortest digits, always written in place; of two equally near candidates the larger
    is taken. -/
def plain (x : Float) : String :=
  match read x with
  | .undefined => "NaN"
  | .infinite negative => signText negative ++ "inf"
  | .finite negative significand exponent =>
    signText negative ++ (shortest .up significand exponent).positional

/-- A number as JSON: in place, and with a point, from `1e-5` up to `1e16`; scientific
    beyond; `null` for what JSON cannot say. Of two equally near candidates the even one is
    taken. -/
def json (x : Float) : String :=
  match read x with
  | .undefined => "null"
  | .infinite _ => "null"
  | .finite negative significand exponent =>
    let d := shortest .even significand exponent
    let (digits, point) := d.digitsAndPoint
    let body :=
      if significand = 0 then "0.0"
      else if -5 < point ∧ point ≤ 16 then
        if digits.length ≤ point then d.positional ++ ".0" else d.positional
      else d.scientific
    signText negative ++ body

/-- The number that a run of decimal digits denotes. -/
def ofDigits (digits : List Char) : Nat :=
  digits.foldl (fun n c => 10 * n + (c.toNat - '0'.toNat)) 0

/-- The double nearest to the decimal with these digits before and after its point. -/
def ofDecimal (whole fraction : List Char) : Float :=
  Float.ofScientific (ofDigits (whole ++ fraction)) true fraction.length

end Lox.Number
