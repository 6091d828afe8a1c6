import RamOverlay.Number.Shortest
import RamOverlay.Placement.Problem

/-!
# The problem as solver data

The data section in which a placement problem is handed to the solver: the names of the blocks, a
table for each of their properties, the matrix of successors and the settings. Names are padded to
the longest of them, by its bytes.
-/

namespace RamOverlay.PlacementProblem

def padRight (width : Nat) (s : String) : String :=
  s ++ String.ofList (List.replicate (width - s.length) ' ')

/-- A flag as a digit. -/
def bit (b : Bool) : String := if b then "1" else "0"

def names (problem : PlacementProblem) : List String := problem.blocks.map (·.name)

/-- The column of the values stands behind the longest name. -/
def nameWidth (problem : PlacementProblem) : Nat :=
  (problem.names.map String.utf8ByteSize).foldl max 0

/-- A column of the problem, with one block a line. -/
def table (problem : PlacementProblem) (title : String) (value : ProblemBlock → String) : String :=
  "param " ++ title ++ " :=\n"
    ++ String.join (problem.blocks.map fun block =>
      "\t" ++ padRight problem.nameWidth block.name ++ " " ++ value block ++ "\n")
    ++ ";\n\n"

/-- The row of a block in the matrix of successors. -/
def successorRow (problem : PlacementProblem) (block : ProblemBlock) : String :=
  "\t" ++ padRight problem.nameWidth block.name ++ "\t\t"
    ++ String.join ((List.range problem.blocks.length).map fun j =>
      bit (block.successors.contains j) ++ " ")
    ++ "\n"

/-- The matrix of the successors, by name. -/
def successorTable (problem : PlacementProblem) : String :=
  "param successors : " ++ Text.joinWith " " problem.names ++ " :=\n"
    ++ String.join (problem.blocks.map problem.successorRow) ++ ";\n\n"

def setting (title value : String) : String := "param " ++ title ++ " := " ++ value ++ ";\n"

/-- The tables of the properties of blocks, by their titles. -/
def properties : List (String × (ProblemBlock → String)) :=
  [("usize", fun b => Text.decimal b.cost.size),
    ("cyc_cost", fun b => Text.decimal b.cost.cycles),
    ("iterations", fun b => Text.decimal b.iterations),
    ("force_ram", fun b => bit b.forceRam),
    ("force_flash", fun b => bit b.forceFlash),
    ("icost_ram", fun b => Text.decimal b.instrumentation.size),
    ("icost_cyc", fun b => Text.decimal b.instrumentation.cycles),
    ("icost_cyc_ram", fun b => Text.decimal b.ramAccessCycles)]

/-- The whole problem as the solver reads it. -/
def mathprog (problem : PlacementProblem) : String :=
  "set BBs := " ++ Text.joinWith " " problem.names ++ ";\n\n"
    ++ String.join (properties.map fun (title, value) => problem.table title value)
    ++ problem.successorTable
    ++ setting "E_flash" (Text.decimal problem.config.flashEnergy)
    ++ setting "E_ram" (Text.decimal problem.config.ramEnergy)
    ++ setting "spare_ram" (Text.decimal problem.config.spareRam)
    ++ setting "max_cycle_factor" problem.config.maxCycleFactor.text
    ++ "end;\n"

end RamOverlay.PlacementProblem
