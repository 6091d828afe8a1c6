import RamOverlay.Keyed
import RamOverlay.Text.Numeral
import RamOverlay.Text.Quoted

/-!
# The text of a size cache

A size cache is kept as a JSON object that gives each instruction its size. It is written with one
member a line and ascending keys; it is read with any blanks between the tokens, and of several
members with one key the last one counts. Sizes are unsigned 32-bit integers.
-/

namespace RamOverlay.CacheText

/-- Sizes by instruction text, in ascending order of the texts. -/
abbrev Sizes := Keyed String Nat

/-- Four hexadecimal digits of a number below `2 ^ 16`. -/
def hex4 (n : Nat) : List Char :=
  [n / 4096, n / 256 % 16, n / 16 % 16, n % 16].map Text.hexDigit

/-- How a character is written inside a string. -/
def escape (c : Char) : List Char :=
  if c = '"' then ['\\', '"']
  else if c = '\\' then ['\\', '\\']
  else if c = '\n' then ['\\', 'n']
  else if c = '\r' then ['\\', 'r']
  else if c = '\t' then ['\\', 't']
  else if c.toNat = 8 then ['\\', 'b']
  else if c.toNat = 12 then ['\\', 'f']
  else if c.toNat < 32 then ['\\', 'u'] ++ hex4 c.toNat
  else [c]

/-- A size as a member of the object, on a line of its own. -/
def member (entry : String × Nat) : List Char :=
  "\n  \"".toList ++ entry.1.toList.flatMap escape ++ "\": ".toList
    ++ Text.decimalDigits entry.2

/-- The text of a cache file: an object with one member a line, in the order of the keys. -/
def write (sizes : Sizes) : String :=
  if sizes.isEmpty then String.ofList ['\x7b', '\x7d']
  else String.ofList (['\x7b'] ++ [','].intercalate (sizes.map member) ++ ['\n', '\x7d'])

/-- A piece of a string: a character, or a unit of UTF-16 written in hexadecimal. -/
inductive Piece where
  | char (c : Char)
  | codeUnit (n : Nat)
  deriving DecidableEq, Repr

def hexValue? (c : Char) : Option Nat :=
  if '0' ≤ c ∧ c ≤ '9' then some (c.toNat - 48)
  else if 'a' ≤ c ∧ c ≤ 'f' then some (c.toNat - 87)
  else if 'A' ≤ c ∧ c ≤ 'F' then some (c.toNat - 55)
  else none

def hexValue4? (a b c d : Char) : Option Nat := do
  return (((← hexValue? a) * 16 + (← hexValue? b)) * 16 + (← hexValue? c)) * 16 + (← hexValue? d)

/-- The character that a letter behind a backslash stands for. -/
def unescape? : Char → Option Char
  | '"' => some '"'
  | '\\' => some '\\'
  | '/' => some '/'
  | 'b' => some '\x08'
  | 'f' => some '\x0c'
  | 'n' => some '\n'
  | 'r' => some '\r'
  | 't' => some '\t'
  | _ => none

/-- The pieces of a string up to its closing quote, and what stands behind it. -/
def pieces? : List Char → Option (List Piece × List Char)
  | [] => none
  | '"' :: rest => some ([], rest)
  | '\\' :: 'u' :: a :: b :: c :: d :: rest => do
    let n ← hexValue4? a b c d
    let (pieces, rest) ← pieces? rest
    return (.codeUnit n :: pieces, rest)
  | '\\' :: letter :: rest => do
    let c ← unescape? letter
    let (pieces, rest) ← pieces? rest
    return (.char c :: pieces, rest)
  | c :: rest =>
    if c = '\\' ∨ c.toNat < 32 then none
    else do
      let (pieces, rest) ← pieces? rest
      return (.char c :: pieces, rest)

/-- Whether a unit is the first of a surrogate pair. -/
def isHighSurrogate (n : Nat) : Bool := 0xd800 ≤ n && n < 0xdc00

/-- Whether a unit is the second of a surrogate pair. -/
def isLowSurrogate (n : Nat) : Bool := 0xdc00 ≤ n && n < 0xe000

/-- The characters of pieces; units that pair up make one character, a single surrogate none. -/
def characters? : List Piece → Option (List Char)
  | [] => some []
  | .char c :: rest => (characters? rest).map (c :: ·)
  | .codeUnit high :: .codeUnit low :: rest =>
    if isHighSurrogate high then
      if isLowSurrogate low then
        (characters? rest).map
          (Char.ofNat (0x10000 + (high - 0xd800) * 0x400 + (low - 0xdc00)) :: ·)
      else none
    else if isLowSurrogate high then none
    else (characters? (.codeUnit low :: rest)).map (Char.ofNat high :: ·)
  | .codeUnit n :: rest =>
    if isHighSurrogate n || isLowSurrogate n then none
    else (characters? rest).map (Char.ofNat n :: ·)

/-- The text behind its leading blanks. -/
def skip (cs : List Char) : List Char :=
  cs.dropWhile fun c => c == ' ' || c == '\n' || c == '\r' || c == '\t'

/-- Reads a size at the front; a number has no zero before other digits. -/
def size? (cs : List Char) : Option (Nat × List Char) := do
  let digits := cs.takeWhile Char.isDigit
  let rest := cs.dropWhile Char.isDigit
  let n ← match digits with
    | '0' :: _ :: _ => none
    | digits => Text.natural? Text.wordLimit digits
  return (n, rest)

/-- Reads a member, and tells what is left of the text. -/
def member? : List Char → Option ((String × Nat) × List Char)
  | '"' :: rest => do
    let (pieces, rest) ← pieces? rest
    let key ← characters? pieces
    match skip rest with
    | ':' :: rest => do
      let (n, rest) ← size? (skip rest)
      return ((String.ofList key, n), rest)
    | _ => none
  | _ => none

/-- Reads members and the closing brace; `fuel` bounds the number of members. -/
def members? (sizes : Sizes) : Nat → List Char → Option (Sizes × List Char)
  | 0, _ => none
  | fuel + 1, cs => do
    let ((key, n), rest) ← member? (skip cs)
    let sizes := sizes.insert key n
    match skip rest with
    | ',' :: rest => members? sizes fuel rest
    | '\x7d' :: rest => return (sizes, rest)
    | _ => none

/-- Reads the object; a text of nothing but blanks holds no sizes. -/
def read? (text : String) : Option Sizes :=
  if Text.allBlank text then some []
  else
    match skip text.toList with
    | '\x7b' :: rest =>
      match skip rest with
      | '\x7d' :: rest => if skip rest = [] then some [] else none
      | rest => do
        let (sizes, rest) ← members? [] rest.length rest
        if skip rest = [] then return sizes else none
    | _ => none

end RamOverlay.CacheText
