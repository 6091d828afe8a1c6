/-!
# Double-precision numbers

The data of the binary interchange format with 64 bits, as exact numbers: a finite one is an integer
times a power of two. A ratio is rounded to the nearest of them, of two nearest to the one with the
even significand.
-/

namespace RamOverlay

inductive Binary64 where
  | nan
  | infinite (negative : Bool)
  /-- `significand * 2 ^ exponent`. The significand is below `2 ^ 53`, and at least `2 ^ 52` unless
  the exponent is the least one. -/
  | finite (negative : Bool) (significand : Nat) (exponent : Int)
  deriving DecidableEq, Repr

namespace Binary64

/-- The bits of a significand. -/
def precision : Nat := 53

/-- The least exponent of a finite number. -/
def leastExponent : Int := -1074

/-- The greatest exponent of a finite number. -/
def greatestExponent : Int := 971

/-- The quotient rounded to the nearest integer, of two nearest to the even one. -/
def roundRatio (num den : Nat) : Nat :=
  let quotient := num / den
  let remainder := num % den
  if 2 * remainder > den ∨ (2 * remainder = den ∧ quotient % 2 = 1) then quotient + 1 else quotient

/-- Rounds `num / den` to a multiple of `2 ^ exponent`. -/
def roundAt (num den : Nat) (exponent : Int) : Nat :=
  if 0 ≤ exponent then roundRatio num (den <<< exponent.toNat)
  else roundRatio (num <<< (-exponent).toNat) den

/-- Whether `num / den` is below `2 ^ bits` in units of `2 ^ exponent`. -/
def isBelow (num den : Nat) (exponent : Int) (bits : Nat) : Bool :=
  if 0 ≤ exponent then num < den <<< (exponent.toNat + bits)
  else num <<< (-exponent).toNat < den <<< bits

/-- The exponent for which `num / den` has a significand of full precision. -/
def exponentOf (num den : Nat) : Int :=
  let guess := (num.log2 : Int) - den.log2 - (precision - 1)
  let exact := if isBelow num den guess (precision - 1) then guess - 1 else guess
  max exact leastExponent

def ofRatio (negative : Bool) (num den : Nat) : Binary64 :=
  if num = 0 then finite negative 0 leastExponent
  else
    let exponent := exponentOf num den
    let significand := roundAt num den exponent
    let (significand, exponent) :=
      if significand = 1 <<< precision then (1 <<< (precision - 1), exponent + 1)
      else (significand, exponent)
    if exponent > greatestExponent then infinite negative
    else finite negative significand exponent

end Binary64

end RamOverlay
