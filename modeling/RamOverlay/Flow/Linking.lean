import RamOverlay.Flow.Formation
import RamOverlay.Traced

/-!
# Edges of a unit graph

Where control goes after each block: to the next block unless the tail never falls through, and to
the block at the label of a branch. A branch to a routine label leaves the routine; it gets no edge
and its tail becomes a forced call.
-/

namespace RamOverlay

/-- The block that begins at an address. -/
def blockAt? (blocks : List Block) (address : Nat) : Option BlockId :=
  blocks.findIdx? (·.address == address)

/-- The block after `id` if the tail can fall through to it. -/
def fallthrough (count : Nat) (id : BlockId) (tail : Instruction) : List BlockId :=
  if !tail.isUnconditional && id + 1 < count then [id + 1] else []

/-- An edge is not added twice. -/
def addSuccessor (successors : List BlockId) (target : BlockId) : List BlockId :=
  if target ∈ successors then successors else successors ++ [target]

/-- The block with its successors. A call comes back to the next entry and has no edge to the
called label. -/
def linkBlock (unit : SourceUnit) (routines : RoutineLabels) (blocks : List Block)
    (id : BlockId) (block : Block) : Attempt ReclassifyError Block :=
  let tail := block.tail
  let next := fallthrough blocks.length id tail
  let label? := if tail.isCall then none else tail.destination.label?
  match label? with
  | none => pure { block with successors := next }
  | some label =>
    if label ∈ routines then do
      Traced.report (.branchIntoRoutine unit.name tail.line (Text.strip tail.text) label)
      let tail ← Attempt.ofExcept tail.forceCall
      return { block.withTail tail with successors := next }
    else
      match (unit.addressOf? label).bind (blockAt? blocks) with
      | some target => pure { block with successors := addSuccessor next target }
      | none => do
        Traced.report (.unknownLink unit.name tail.line label)
        return { block with successors := next }

/-- Links the blocks one after the other; the first one that cannot be linked ends it. -/
def linkFrom (unit : SourceUnit) (routines : RoutineLabels) (blocks : List Block) (id : BlockId) :
    List Block → Attempt ReclassifyError (List Block)
  | [] => pure []
  | block :: rest => do
    let block ← linkBlock unit routines blocks id block
    let rest ← linkFrom unit routines blocks (id + 1) rest
    return block :: rest

/-- The graph of all code of a unit that can be run from its routine labels. -/
def SourceUnit.graph (unit : SourceUnit) (routines : RoutineLabels) :
    Attempt ReclassifyError Graph := do
  let walk ← Discovery.discover unit routines
  let blocks := Discovery.formBlocks walk unit.instructions
  let blocks ← linkFrom unit routines blocks 0 blocks
  return Graph.ofBlocks unit.name blocks

end RamOverlay
