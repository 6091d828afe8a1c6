import RamOverlay.Flow.Linking
import RamOverlay.Flow.LocalCall

/-!
# Routines

A unit graph falls apart into its weak components, one for each routine. The blocks of a routine
keep their order; control enters a routine at the blocks without a predecessor and at those with a
routine label, or anywhere if there is no such block.
-/

namespace RamOverlay

namespace Graph

/-- The blocks with a component number, in order. -/
def members (components : List Nat) (number : Nat) : List BlockId :=
  (components.zipIdx.filter fun (component, _) => component == number).map (·.2)

/-- The graph of some of the blocks; edges to other blocks count as edges to the first. -/
def restrict (graph : Graph) (ids : List BlockId) : Graph :=
  ofBlocks graph.unit <| ids.filterMap fun id => (graph.block? id).map fun block =>
    { block with
      successors := block.successors.map fun successor =>
        if successor ∈ ids then ids.idxOf successor else 0 }

/-- Whether control may enter a routine at a block. -/
def isEntrance (graph : Graph) (routines : RoutineLabels) (id : BlockId) (block : Block) : Bool :=
  (graph.predecessors id).isEmpty
    || match block.label? with
      | some label => routines.contains label
      | none => false

/-- The entrances of a routine are its starts; where it has none, every block is one. -/
def withStarts (graph : Graph) (routines : RoutineLabels) : Traced Graph :=
  let starts := (graph.entries.filter fun (id, node) =>
    graph.isEntrance routines id node.block).map (·.1)
  if starts.isEmpty then do
    let line := match graph.blocks.head? with
      | some block => block.line
      | none => 0
    Traced.report (.noStartingBlock graph.unit line)
    return { graph with starts := graph.ids }
  else return { graph with starts }

/-- The routines of the components with the given numbers. -/
def partitionFrom (graph : Graph) (routines : RoutineLabels) (components : List Nat) :
    List Nat → Traced (List Graph)
  | [] => pure []
  | number :: rest => do
    let routine ← (graph.restrict (members components number)).withStarts routines
    let others ← graph.partitionFrom routines components rest
    return routine :: others

/-- One routine for each component. -/
def partition (graph : Graph) (routines : RoutineLabels) : Traced (List Graph) :=
  let components := graph.components
  let count := components.foldl (fun count number => max count (number + 1)) 0
  graph.partitionFrom routines components (List.range count)

end Graph

/-- The routines of a unit: its graph, with calls inside a routine made jumps, in parts. -/
def SourceUnit.routines (unit : SourceUnit) (routines : RoutineLabels) :
    Attempt ReclassifyError (List Graph) := do
  let graph ← unit.graph routines
  let graph ← graph.correctLocalCalls
  graph.partition routines

/-- The labels of all routines of a program, each once. -/
def routineLabels (units : List SourceUnit) : RoutineLabels :=
  Ascending.ofList (units.flatMap (·.routineLabels))

end RamOverlay
