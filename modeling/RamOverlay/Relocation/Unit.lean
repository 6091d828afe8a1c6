import RamOverlay.Relocation.Exit
import RamOverlay.Relocation.Overlay
import RamOverlay.Relocation.References
import RamOverlay.Source.Unit

/-!
# Relocated units

The edits of a source unit for a placement of its blocks. First the references and the exits of all
blocks are replaced, then the blocks in RAM are moved, then the starts of all blocks are marked. A
block that cannot get a long exit is reported, and in the end the first of them is the error.
-/

namespace RamOverlay

/-- How much of a file was rewritten. -/
structure RelocationStats where
  blocks : Nat := 0
  inRam : Nat := 0
  /-- How many long exits it has. -/
  instrumented : Nat := 0
  deriving DecidableEq, Repr

/-- The edits of a unit while its references and exits are replaced. -/
structure Relocating where
  edits : UnitEdits := {}
  /-- How many long exits it has. -/
  instrumented : Nat := 0
  /-- The first block that cannot get a long exit. -/
  failure? : Option ExitError := none
  deriving DecidableEq, Repr

namespace SourceUnit

/-- The line of the entry behind a block; the next line if it is the last one. -/
def lineAfter (unit : SourceUnit) (block : Block) : Nat :=
  match unit.instructions[block.last.address + 1]? with
  | some next => next.line
  | none => block.last.line + 1

/-- Replaces the references and, if it crosses the boundary, the exit of a block. -/
def relocateBlock (unit : SourceUnit) (register : String) (state : Relocating) (block : Block)
    (needed : Bool) : Traced Relocating :=
  let edits :=
    { state.edits with main := state.edits.main.relocateReferences block needed }
  if needed then
    match edits.instrument unit.name block (unit.lineAfter block) register with
    | .ok edits => pure { state with edits, instrumented := state.instrumented + 1 }
    | .error e => do
      Traced.report (.uninstrumentableBlock e.message)
      return { state with edits, failure? := state.failure? <|> some e }
  else pure { state with edits }

/-- The blocks of the routines of a unit, with their graphs and places. -/
def blocksOf (graphs : List Graph) : List (Graph × BlockId × Block) :=
  graphs.flatMap fun graph => graph.entries.map fun (id, node) => (graph, id, node.block)

/-- The edits of a unit for the placement in its graphs; graphs of other units are left out. -/
def relocate (unit : SourceUnit) (register : String) (graphs : List Graph) :
    Attempt ExitError (EditList × RelocationStats) := do
  let blocks := blocksOf (graphs.filter (·.unit == unit.name))
  let state ← blocks.foldlM (fun state (graph, id, block) =>
    unit.relocateBlock register state block (graph.needsInstrumentation id)) ({} : Relocating)
  let moved := blocks.filter fun (graph, id, _) => graph.inRam id
  let main ← moved.foldlM (fun (edits : EditList) (graph, id, block) =>
    edits.moveToRam unit.name block register (graph.needsInstrumentation id)) state.edits.main
  let main := blocks.foldl (fun (edits : EditList) (_, _, block) =>
    edits.markStart unit.name block) main
  match state.failure? with
  | some e => throw e
  | none =>
    let stats : RelocationStats :=
      { blocks := blocks.length, inRam := moved.length, instrumented := state.instrumented }
    Traced.report (.unitTransformed unit.name stats.blocks stats.inRam stats.instrumented)
    return ({ state.edits with main }.all, stats)

/-- The text of a unit after its edits, with a newline at its end. -/
def render (unit : SourceUnit) (edits : EditList) : String :=
  Text.joinWith "\n" (edits.apply unit.lines) ++ "\n"

end SourceUnit

end RamOverlay
