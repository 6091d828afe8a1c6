import RamOverlay.Text.Numeral
import RamOverlay.Text.Split

/-!
# Block locations

A block named by its unit and the source line at which it starts, written with a colon between
them. The last colon counts, so that unit names may hold colons.
-/

namespace RamOverlay

/-- The unit of a block and the line at which the block starts. -/
structure BlockLocation where
  unit : String
  line : Nat
  deriving DecidableEq, Repr

/-- A text that names no place. -/
structure LocationError where
  text : String
  deriving DecidableEq, Repr

def LocationError.message (e : LocationError) : String :=
  "invalid block location `" ++ e.text ++ "`, expected unit:line"

namespace BlockLocation

/-- The line stands behind the last colon, so a unit may have colons in its name. -/
def read? (s : String) : Option BlockLocation := do
  let (unit, line) ← Text.cutLast ':' s.toList
  if unit.isEmpty then none
  let line ← Text.natural? Text.doubleLimit line
  return { unit := String.ofList unit, line }

def read (s : String) : Except LocationError BlockLocation :=
  match read? s with
  | some location => .ok location
  | none => .error ⟨s⟩

/-- The place as it is read back. -/
def text (location : BlockLocation) : String :=
  location.unit ++ ":" ++ Text.decimal location.line

end BlockLocation

end RamOverlay
