import RamOverlay.Text.Split
import RamOverlay.Text.Unprintable

/-!
# Quoted text

Text between double quotes for a report. A quote and a backslash get a backslash, the usual control
characters their letter, and every other character that does not show by itself its code point in
hexadecimal.
-/

namespace RamOverlay.Text

def hexDigit (d : Nat) : Char := if d < 10 then Char.ofNat (48 + d) else Char.ofNat (87 + d % 16)

/-- The hexadecimal digits of `n`, written before `rest`; `fuel` bounds their number. -/
def hexBefore : Nat → Nat → List Char → List Char
  | 0, _, rest => rest
  | fuel + 1, n, rest =>
    if n < 16 then hexDigit n :: rest else hexBefore fuel (n / 16) (hexDigit (n % 16) :: rest)

def hexDigits (n : Nat) : List Char := hexBefore (n + 1) n []

/-- A character as it is written within quotes. -/
def quoteChar (c : Char) : List Char :=
  if c = '"' then ['\\', '"']
  else if c = '\\' then ['\\', '\\']
  else if c = '\n' then ['\\', 'n']
  else if c = '\r' then ['\\', 'r']
  else if c = '\t' then ['\\', 't']
  else if c.toNat = 0 then ['\\', '0']
  else if isUnprintable c then ['\\', 'u', '\x7b'] ++ hexDigits c.toNat ++ ['\x7d']
  else [c]

def quoted (s : String) : String := String.ofList ('"' :: s.toList.flatMap quoteChar ++ ['"'])

def quotedList (strings : List String) : String :=
  "[" ++ joinWith ", " (strings.map quoted) ++ "]"

end RamOverlay.Text
