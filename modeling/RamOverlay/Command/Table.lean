import RamOverlay.Placement.MathProg

/-!
# Tables of results

A table in plain text with bars between the columns. A column is as wide as its widest cell; titles
are centred, cells are aligned to the left or to the right.
-/

namespace RamOverlay

/-- Which end of the cells of a column is lined up. -/
inductive Alignment where
  | left
  | right
  deriving DecidableEq, Repr

structure Column where
  title : String
  alignment : Alignment
  deriving DecidableEq, Repr

structure Table where
  columns : List Column
  rows : List (List String) := []
  deriving DecidableEq, Repr

namespace Table

def blanks (count : Nat) : String := String.ofList (List.replicate count ' ')

/-- A text in the middle of `width` characters, a blank nearer to the left if it cannot be even. -/
def centered (width : Nat) (s : String) : String :=
  let space := width - s.length
  blanks (space / 2) ++ s ++ blanks (space - space / 2)

def cell (width : Nat) (alignment : Alignment) (s : String) : String :=
  match alignment with
  | .left => s ++ blanks (width - s.length)
  | .right => blanks (width - s.length) ++ s

def widths (table : Table) : List Nat :=
  table.rows.foldl
    (fun widths row => List.zipWith (fun width (s : String) => max width s.length) widths row)
    (table.columns.map (·.title.length))

/-- A line with a bar before and after each part. -/
def barred (parts : List String) : String :=
  "|" ++ String.join (parts.map fun part => part ++ "|") ++ "\n"

def rule (width : Nat) (alignment : Alignment) : String :=
  let dashes := String.ofList (List.replicate (width + 1) '-')
  match alignment with
  | .left => ":" ++ dashes
  | .right => dashes ++ ":"

def render (table : Table) : String :=
  let widths := table.widths
  let alignments := table.columns.map (·.alignment)
  let titles := List.zipWith (fun column width => " " ++ centered width column.title ++ " ")
    table.columns widths
  let row := fun (cells : List String) =>
    barred <| (List.zip (List.zip widths alignments) cells).map fun ((width, alignment), s) =>
      " " ++ cell width alignment s ++ " "
  barred titles ++ barred (List.zipWith rule widths alignments) ++ String.join (table.rows.map row)

end Table

end RamOverlay
