import RamOverlay.Text.Numeral
import RamOverlay.Text.Split

/-!
# Data sections

What the data section of a solver's model says, read word by word. A statement ends at a semicolon,
its words are parted by blanks, and the section ends with a statement of its own. A *table* gives
numbers to names, one name after the other; a *matrix* gives each of its rows a number for each of
its columns.
-/

namespace RamOverlay.DataSection

/-- A statement of a data section: a set, a single value, a column, or a matrix. -/
inductive Entry where
  | set (title : String) (members : List String)
  | setting (title value : String)
  | table (title : String) (rows : List (String × Nat))
  | matrix (title : String) (columns : List String) (rows : List (String × List Nat))
  deriving DecidableEq, Repr

/-- Reads names, each with a number behind it. -/
def pairs? : List String → Option (List (String × Nat))
  | [] => some []
  | [_] => none
  | name :: value :: rest => do
    let n ← Text.digits? value.toList
    let rows ← pairs? rest
    return (name, n) :: rows

/-- Reads names, each with `width` numbers behind it. -/
def rows? (width : Nat) : List String → Option (List (String × List Nat))
  | [] => some []
  | name :: rest =>
    if rest.length < width then none
    else do
      let numbers ← (rest.take width).mapM fun value => Text.digits? value.toList
      let rows ← rows? width (rest.drop width)
      return (name, numbers) :: rows
termination_by words => words.length
decreasing_by simp only [List.length_drop, List.length_cons]; omega

/-- Reads the words of a statement. -/
def statement? : List String → Option Entry
  | "set" :: title :: ":=" :: members => some (.set title members)
  | ["param", title, ":=", value] => some (.setting title value)
  | "param" :: title :: ":=" :: words => (pairs? words).map (.table title)
  | "param" :: title :: ":" :: words =>
    let columns := words.takeWhile (· ≠ ":=")
    match words.dropWhile (· ≠ ":=") with
    | [] => none
    | _ :: cells => (rows? columns.length cells).map (.matrix title columns)
  | _ => none

/-- Reads statements up to the one that ends the section; nothing may stand behind that. -/
def entries? : List (List String) → Option (List Entry)
  | [] => none
  | words :: rest =>
    if words = ["end"] then if rest = [[]] then some [] else none
    else do
      let entry ← statement? words
      let entries ← entries? rest
      return entry :: entries

def wordsOf (cs : List Char) : List String := (Text.words cs).map String.ofList

/-- The words of the statements of a text, and those behind the last semicolon. -/
def statements (cs : List Char) : List (List String) := (Text.pieces ';' cs).map wordsOf

/-- Reads a data section statement by statement. -/
def read? (text : String) : Option (List Entry) := entries? (statements text.toList)

end RamOverlay.DataSection
