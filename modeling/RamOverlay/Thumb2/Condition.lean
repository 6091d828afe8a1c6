/-!
# Condition codes

The twelve conditions whose negation is a condition too, with the two-letter suffixes that
mnemonics carry. Main facts: `inverse` is an involution, and the suffix of a condition names it.
-/

namespace RamOverlay.Thumb2

inductive Condition where
  | eq
  | ne
  | ge
  | lt
  | gt
  | le
  | ls
  | hi
  | cc
  | cs
  | mi
  | pl
  deriving DecidableEq, Repr

namespace Condition

def suffix : Condition → String
  | eq => "eq"
  | ne => "ne"
  | ge => "ge"
  | lt => "lt"
  | gt => "gt"
  | le => "le"
  | ls => "ls"
  | hi => "hi"
  | cc => "cc"
  | cs => "cs"
  | mi => "mi"
  | pl => "pl"

/-- The condition with a suffix; `hs` and `lo` are other names of `cs` and `cc`. -/
def ofSuffix? : String → Option Condition
  | "eq" => some eq
  | "ne" => some ne
  | "ge" => some ge
  | "lt" => some lt
  | "gt" => some gt
  | "le" => some le
  | "ls" => some ls
  | "hi" => some hi
  | "cc" | "lo" => some cc
  | "cs" | "hs" => some cs
  | "mi" => some mi
  | "pl" => some pl
  | _ => none

/-- The condition of a conditional branch, read off its mnemonic. -/
def ofBranch? (operator : String) : Option Condition :=
  match operator.toList with
  | 'b' :: rest => ofSuffix? (String.ofList rest)
  | _ => none

/-- The condition that holds exactly when this one does not. -/
def inverse : Condition → Condition
  | eq => ne
  | ne => eq
  | ge => lt
  | lt => ge
  | gt => le
  | le => gt
  | ls => hi
  | hi => ls
  | cc => cs
  | cs => cc
  | mi => pl
  | pl => mi

@[simp] theorem inverse_inverse (c : Condition) : c.inverse.inverse = c := by cases c <;> rfl

@[simp] theorem ofSuffix?_suffix (c : Condition) : ofSuffix? c.suffix = some c := by
  cases c <;> rfl

end Condition

end RamOverlay.Thumb2
