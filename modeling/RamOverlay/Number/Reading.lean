import RamOverlay.Number.Binary64
import RamOverlay.Text.Numeral

/-!
# Reading double-precision numbers

A number is an optional sign and then `inf`, `infinity` or `nan` in any case of letters, or digits
with at most one point among them and an optional exponent. At least one digit is needed, and no
blanks are taken. The result is the double nearest to the written number.
-/

namespace RamOverlay.Binary64

/-- A decimal number as it is written: `digits * 10 ^ exponent`. -/
structure Written where
  digits : List Char
  /-- The power of ten. -/
  exponent : Int
  deriving DecidableEq, Repr

def exponentPart? : List Char → Option Int
  | '-' :: rest => (Text.digits? rest).map fun n => -(n : Int)
  | '+' :: rest => (Text.digits? rest).map fun n => (n : Int)
  | rest => (Text.digits? rest).map fun n => (n : Int)

def written? (cs : List Char) : Option Written := do
  let whole := cs.takeWhile Char.isDigit
  let rest := cs.dropWhile Char.isDigit
  let (fraction, rest) := match rest with
    | '.' :: rest => (rest.takeWhile Char.isDigit, rest.dropWhile Char.isDigit)
    | rest => ([], rest)
  if whole.isEmpty && fraction.isEmpty then none
  let exponent ← match rest with
    | [] => some 0
    | c :: rest => if c = 'e' ∨ c = 'E' then exponentPart? rest else none
  return { digits := whole ++ fraction, exponent := exponent - fraction.length }

/-- Decimal exponents outside this range leave only zero or infinity, however many digits a number
has before them. -/
def decimalReach : Int := 400

def ofWritten (negative : Bool) (w : Written) : Binary64 :=
  let digits := w.digits.dropWhile (· = '0')
  match Text.digits? digits with
  | none => ofRatio negative 0 1
  | some value =>
    let magnitude := w.exponent + digits.length
    if magnitude > decimalReach then infinite negative
    else if magnitude < -decimalReach then ofRatio negative 0 1
    else if 0 ≤ w.exponent then ofRatio negative (value * Nat.pow 10 w.exponent.toNat) 1
    else ofRatio negative value (Nat.pow 10 (-w.exponent).toNat)

def unsigned? (negative : Bool) (cs : List Char) : Option Binary64 :=
  let word := String.ofList (cs.map Char.toLower)
  if word = "inf" ∨ word = "infinity" then some (infinite negative)
  else if word = "nan" then some nan
  else (written? cs).map (ofWritten negative)

def read? (s : String) : Option Binary64 :=
  match s.toList with
  | '-' :: rest => unsigned? true rest
  | '+' :: rest => unsigned? false rest
  | cs => unsigned? false cs

end RamOverlay.Binary64
