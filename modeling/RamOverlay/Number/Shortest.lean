import RamOverlay.Number.Binary64
import RamOverlay.Text.Numeral

/-!
# Shortest decimals

The text of a double-precision number: the fewest digits that are read back as the same number, and
of those the nearest to it. The digits are found in exact arithmetic. They are written out in full,
without an exponent and without a point behind an integer.
-/

namespace RamOverlay.Binary64

/-- A number between two others, over a common denominator: the numbers that are rounded to `value`
lie from `low` to `high`, the ends included if `closed`. -/
structure Rounding where
  /-- The least number that may be rounded to the value. -/
  low : Nat
  value : Nat
  /-- The greatest number that may be rounded to the value. -/
  high : Nat
  den : Nat
  closed : Bool
  deriving DecidableEq, Repr

/-- The numbers that are rounded to `significand * 2 ^ exponent`. Below a power of two the distance
to the next number is half of that above it. -/
def roundingOf (significand : Nat) (exponent : Int) : Rounding :=
  let unit := exponent - 2
  let scale := if 0 ≤ unit then 1 <<< unit.toNat else 1
  let den := if 0 ≤ unit then 1 else 1 <<< (-unit).toNat
  let below :=
    if significand = 1 <<< (precision - 1) ∧ exponent > leastExponent then 1 else 2
  { low := (4 * significand - below) * scale
    value := 4 * significand * scale
    high := (4 * significand + 2) * scale
    den
    closed := significand % 2 = 0 }

structure Decimal where
  digits : Nat
  /-- The power of ten. -/
  exponent : Int
  deriving DecidableEq, Repr

/-- Whether `n * 10 ^ exponent` is rounded to the value. -/
def Rounding.holds (r : Rounding) (n : Nat) (exponent : Int) : Bool :=
  let num := if 0 ≤ exponent then n * Nat.pow 10 exponent.toNat * r.den else n * r.den
  let scale := if 0 ≤ exponent then 1 else Nat.pow 10 (-exponent).toNat
  if r.closed then r.low * scale ≤ num && num ≤ r.high * scale
  else r.low * scale < num && num < r.high * scale

/-- The multiples of `10 ^ exponent` on both sides of the value that are rounded to it; the nearer
one, if both are, and the greater one if both are equally near. -/
def Rounding.nearest? (r : Rounding) (exponent : Int) : Option Decimal :=
  let num := if 0 ≤ exponent then r.value else r.value * Nat.pow 10 (-exponent).toNat
  let den := if 0 ≤ exponent then r.den * Nat.pow 10 exponent.toNat else r.den
  let floor := num / den
  let down := r.holds floor exponent && floor ≠ 0
  let up := r.holds (floor + 1) exponent
  if down && up then
    some ⟨if 2 * (num % den) < den then floor else floor + 1, exponent⟩
  else if down then some ⟨floor, exponent⟩
  else if up then some ⟨floor + 1, exponent⟩
  else none

/-- The number of digits before the point, or how far the first digit is behind it as a negative
number; `fuel` bounds the latter. -/
def magnitudeOf (num den : Nat) (fuel : Nat) : Int :=
  if den ≤ num then (Text.decimalDigits (num / den)).length
  else
    match fuel with
    | 0 => 0
    | fuel + 1 => if den ≤ num * 10 then 0 else magnitudeOf (num * 10) den fuel - 1

/-- The first of the grids with `count`, `count + 1`, … digits that has a number to offer. -/
def Rounding.shortestFrom (r : Rounding) (magnitude : Int) (count : Nat) : Nat → Decimal
  | 0 => ⟨0, 0⟩
  | fuel + 1 =>
    match r.nearest? (magnitude - count) with
    | some decimal => decimal
    | none => r.shortestFrom magnitude (count + 1) fuel

/-- Most digits that a double-precision number needs. -/
def mostDigits : Nat := 17

/-- The shortest decimal that is rounded to `significand * 2 ^ exponent`. -/
def shortest (significand : Nat) (exponent : Int) : Decimal :=
  let r := roundingOf significand exponent
  r.shortestFrom (magnitudeOf r.value r.den decimalPlaces) 1 mostDigits
where
  /-- No number needs more zeros than this behind the point. -/
  decimalPlaces : Nat := 330

/-- Drops zeros at the end of reversed digits, as many as `most`. -/
def dropZeros : Nat → List Char → List Char
  | most + 1, '0' :: rest => dropZeros most rest
  | _, digits => digits

def Decimal.text (d : Decimal) : List Char :=
  let digits := Text.decimalDigits d.digits
  if 0 ≤ d.exponent then digits ++ List.replicate d.exponent.toNat '0'
  else
    let places := (-d.exponent).toNat
    let padded := List.replicate (places + 1 - digits.length) '0' ++ digits
    let whole := padded.take (padded.length - places)
    let fraction := (dropZeros places (padded.drop (padded.length - places)).reverse).reverse
    if fraction.isEmpty then whole else whole ++ '.' :: fraction

def text : Binary64 → String
  | nan => "NaN"
  | infinite negative => if negative then "-inf" else "inf"
  | finite negative significand exponent =>
    let digits :=
      if significand = 0 then ['0'] else (shortest significand exponent).text
    String.ofList (if negative then '-' :: digits else digits)

end RamOverlay.Binary64
