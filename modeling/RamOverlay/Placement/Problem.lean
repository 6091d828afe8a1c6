import RamOverlay.Flow.Call
import RamOverlay.Placement.Forced
import RamOverlay.Size.Cost

/-!
# The placement problem

What a solver has to know about each block: its cost, how often it is run, where it has to go, what
a long exit and running it from RAM would add, and which blocks follow it.
-/

namespace RamOverlay

/-- The kinds of exits, by what making them long costs. -/
inductive ExitKind where
  | compare
  | fallthrough
  | unconditional
  | conditional
  deriving DecidableEq, Repr

/-- What a long exit of each kind takes beyond the exit that it replaces. -/
def ExitKind.overhead : ExitKind → Cost
  | compare => ⟨8, 5⟩
  | fallthrough => ⟨6, 4⟩
  | unconditional => ⟨2, 1⟩
  | conditional => ⟨6, 4⟩

/-- Bytes and cycles that each call through the safe register adds. -/
def callPenalty : Nat := 2

/-- Cycles that each load or store adds when it is run from RAM. -/
def ramAccessPenalty : Nat := 2

namespace Block

/-- The kind of exit that a block gets if it has to leave its memory. -/
def exitKind (block : Block) : ExitKind :=
  let tail := block.tail
  if tail.isCompareBranch then .compare
  else if !tail.isBranch then .fallthrough
  else if tail.isUnconditional then .unconditional
  else .conditional

/-- What a long exit and the calls of the block add. -/
def instrumentationCost (block : Block) : Cost :=
  let calls := min (block.callCount * callPenalty) Thumb2.maxCycles
  block.exitKind.overhead + ⟨calls, calls⟩

/-- The cycles that running the block from RAM adds. -/
def ramAccessCost (block : Block) : Nat :=
  min (block.memoryAccessCount * ramAccessPenalty) Thumb2.maxCycles

end Block

/-- What the solver is told about a block. -/
structure ProblemBlock where
  name : String
  location : BlockRef
  cost : Cost
  iterations : Nat
  forceRam : Bool
  forceFlash : Bool
  instrumentation : Cost
  ramAccessCycles : Nat
  /-- The blocks that follow it, by their places in the problem. -/
  successors : List Nat
  deriving DecidableEq, Repr

/-- All blocks of a program, with the settings that bear on their placement. -/
structure PlacementProblem where
  blocks : List ProblemBlock
  config : Config
  deriving DecidableEq, Repr

namespace PlacementProblem

variable {m : Type → Type} [Monad m]

/-- The blocks of a routine whose first block has place `offset` in the problem. -/
def routineBlocks (oracle : SizeOracle m) (config : Config) (graph : Graph)
    (routine offset : Nat) : List (BlockId × Node) → ExceptT CostError m (List ProblemBlock)
  | [] => pure []
  | (id, node) :: rest => do
    let block := node.block
    let forceRam := config.isForced graph.unit block.line
    let cost ← block.cost oracle
    let others ← routineBlocks oracle config graph routine offset rest
    return {
      name := Graph.nameOf graph.unit block
      location := ⟨routine, id⟩
      cost
      iterations := node.iterations
      forceRam
      forceFlash := config.specifiedOnly && !forceRam
      instrumentation := block.instrumentationCost
      ramAccessCycles := block.ramAccessCost
      successors := block.successors.map (offset + ·) } :: others

/-- The blocks of routines, the first of them with number `routine`. -/
def blocksFrom (oracle : SizeOracle m) (config : Config) (routine offset : Nat) :
    List Graph → ExceptT CostError m (List ProblemBlock)
  | [] => pure []
  | graph :: rest => do
    let blocks ← routineBlocks oracle config graph routine offset graph.entries
    let others ← blocksFrom oracle config (routine + 1) (offset + graph.size) rest
    return blocks ++ others

/-- The placement problem of a program. The first instruction without a cost ends the work. -/
def build (oracle : SizeOracle m) (config : Config) (graphs : List Graph) :
    ExceptT CostError m PlacementProblem := do
  let blocks ← blocksFrom oracle config 0 0 graphs
  return { blocks, config }

end PlacementProblem

end RamOverlay
