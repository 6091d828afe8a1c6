import RamOverlay.Placement.Config
import RamOverlay.Total

/-!
# Forced blocks

Placing exactly the blocks that the settings force into RAM, without a solver.
-/

namespace RamOverlay

/-- The forced locations at which no block of the program starts. -/
def Config.unmatched (config : Config) (graphs : List Graph) : List BlockLocation :=
  config.forced.filter fun location =>
    !graphs.any fun graph =>
      graph.unit == location.unit && (graph.blockAtLine? location.line).isSome

/-- What is reported about forced locations at which no block starts. -/
def Config.unmatchedEvents (config : Config) (graphs : List Graph) : List Event :=
  (config.unmatched graphs).map fun location => .forcedUnmatched location.text

/-- Places the forced blocks of a graph in RAM. -/
def Graph.placeForced (graph : Graph) (config : Config) : Graph :=
  graph.mapNodes fun _ node =>
    if config.isForced graph.unit node.block.line then
      { node with placement := { inRam := true, instrumented := false } }
    else node

/-- Places the forced blocks of a program in RAM; also counts them. -/
def placeForced (config : Config) (graphs : List Graph) : Traced (List Graph × Nat) :=
  let placed := totalOf (fun graph : Graph =>
    graph.blocks.countP fun block => config.isForced graph.unit block.line) graphs
  { value := (graphs.map (·.placeForced config), placed)
    events := config.unmatchedEvents graphs ++ [.forcedPlaced placed] }

end RamOverlay
