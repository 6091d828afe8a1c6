import RamOverlay.Flow.Graph

/-!
# Weak components

The blocks that are joined by edges, whatever their direction, have the same component number.
Components are numbered in the order of their lowest blocks.
-/

namespace RamOverlay.Graph

abbrev Marks := Array (Option Nat)

/-- The blocks joined to a block by an edge. -/
def neighbours (graph : Graph) (id : BlockId) : List BlockId :=
  graph.successors id ++ graph.predecessors id

/-- Gives `number` to a block without a number, and to all that can be reached from it through such
blocks. Each step into the depth numbers a block, so fuel for the number of blocks is enough. -/
def markFrom (graph : Graph) (number : Nat) : Nat → BlockId → Marks → Marks
  | 0, _, marks => marks
  | fuel + 1, id, marks =>
    if marks[id]? = some none then
      (graph.neighbours id).foldl (fun marks other => graph.markFrom number fuel other marks)
        (marks.setIfInBounds id (some number))
    else marks

/-- Numbers the component of each of the blocks that has none, the first with `next`. -/
def markAll (graph : Graph) (next : Nat) (marks : Marks) : List BlockId → Marks
  | [] => marks
  | id :: rest =>
    if marks[id]? = some none then
      graph.markAll (next + 1) (graph.markFrom next graph.size id marks) rest
    else graph.markAll next marks rest

/-- The number of the component of each block, in the order of the blocks. -/
def components (graph : Graph) : List Nat :=
  (graph.markAll 0 (Array.replicate graph.size none) graph.ids).toList.map (·.getD 0)

end RamOverlay.Graph
