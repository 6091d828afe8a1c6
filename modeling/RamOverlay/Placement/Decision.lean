import RamOverlay.Ascending
import RamOverlay.Flow.Graph
import RamOverlay.Keyed
import RamOverlay.Text.Split
import RamOverlay.Total
import RamOverlay.Traced

/-!
# Placement decisions

What a solver has decided. The second, fourth and seventh line of its answer hold the cost, the
cycles and the RAM bytes behind a colon; every other line that is neither a comment nor blank is a
row with the name of a block, its size, and two flags. The last row of a name counts.
-/

namespace RamOverlay

/-- The row of a block in the answer of the solver. -/
structure BlockDecision where
  size : Nat
  inRam : Bool
  /-- Whether its exit is charged as a long exit. -/
  instrumented : Bool
  deriving DecidableEq, Repr

/-- The answer of the solver. -/
structure Decision where
  cost : Int
  cycles : Int
  ramSize : Int
  /-- What is decided about each block that is named. -/
  rows : Keyed String BlockDecision := []
  deriving DecidableEq, Repr

/-- A line that is missing or malformed, counted from one. -/
structure DecisionError where
  line : Nat
  text : String
  deriving DecidableEq, Repr

def DecisionError.message (e : DecisionError) : String :=
  "malformed placement decision line " ++ Text.decimal e.line ++ ": `" ++ e.text ++ "`"

namespace Decision

/-- One more than the greatest integer of a summary line. -/
def summaryLimit : Nat := 0x8000000000000000

/-- The integer between the first colon of a line and the next. -/
def summaryValue? (line : List Char) : Option Int :=
  match Text.pieces ':' line with
  | _ :: value :: _ => Text.integer? summaryLimit (Text.trim value)
  | _ => none

/-- The integer of the summary line at an index. -/
def summaryAt (lines : List (List Char)) (index : Nat) : Except DecisionError Int :=
  let line := lines[index]?.getD []
  match summaryValue? line with
  | some value => .ok value
  | none => .error { line := index + 1, text := String.ofList line }

/-- Whether a line is no row: a comment, or blank. -/
def isSkipped (line : List Char) : Bool := line.head? == some '#' || line.all Text.isBlank

/-- Reads a row by its first four columns. Only the size has to be a number. -/
def row? (line : List Char) : Option (String × BlockDecision) :=
  match (Text.pieces ',' line).map Text.trim with
  | name :: size :: inRam :: instrumented :: _ =>
    (Text.natural? Text.wordLimit size).map fun size =>
      (String.ofList name,
        { size, inRam := inRam == ['1'], instrumented := instrumented == ['1'] })
  | _ => none

/-- Adds the rows of the lines from number `line` on. -/
def rowsFrom (line : Nat) (rows : Keyed String BlockDecision) :
    List (List Char) → Except DecisionError (Keyed String BlockDecision)
  | [] => .ok rows
  | cs :: rest =>
    if isSkipped cs then rowsFrom (line + 1) rows rest
    else
      match row? cs with
      | some (name, decision) => rowsFrom (line + 1) (rows.put name decision) rest
      | none => .error { line, text := String.ofList cs }

/-- Reads an answer: three values at fixed lines, then all lines that look like rows. -/
def parse (text : String) : Except DecisionError Decision := do
  let lines := Text.lines text.toList
  let cost ← summaryAt lines 1
  let cycles ← summaryAt lines 3
  let ramSize ← summaryAt lines 6
  let rows ← rowsFrom 1 [] lines
  return { cost, cycles, ramSize, rows }

def block? (decision : Decision) (name : String) : Option BlockDecision :=
  decision.rows.get? name

/-- What the blocks that go to RAM take there. -/
def ramBytes (decision : Decision) : Nat :=
  totalOf (·.2.size) (decision.rows.filter (·.2.inRam))

/-- Attaches the decision to the blocks of a graph. -/
def applyTo (decision : Decision) (graph : Graph) : Graph :=
  graph.mapNodes fun _ node =>
    match decision.block? (Graph.nameOf graph.unit node.block) with
    | some row =>
      { node with placement := { inRam := row.inRam, instrumented := row.instrumented } }
    | none => node

/-- The names of all blocks of a program, in order. -/
def blockNames (graphs : List Graph) : List String :=
  graphs.flatMap fun graph => graph.blocks.map (Graph.nameOf graph.unit)

/-- How many blocks of a program the decision places in RAM. -/
def placedIn (decision : Decision) (graphs : List Graph) : Nat :=
  (blockNames graphs).countP fun name => ((decision.block? name).map (·.inRam)).getD false

/-- The names in the decision that no block has, ascending. -/
def unknownNames (decision : Decision) (graphs : List Graph) : List String :=
  let names := blockNames graphs
  Ascending.ofList (decision.rows.keys.filter fun name => !names.contains name)

/-- Attaches the decision to the blocks of a program; also counts the blocks placed in RAM. -/
def apply (decision : Decision) (graphs : List Graph) : Traced (List Graph × Nat) :=
  let placed := decision.placedIn graphs
  { value := (graphs.map decision.applyTo, placed)
    events := (decision.unknownNames graphs).map .decisionUnknownBlock
      ++ [.decisionApplied decision.cost decision.cycles placed decision.ramBytes] }

end Decision

end RamOverlay
