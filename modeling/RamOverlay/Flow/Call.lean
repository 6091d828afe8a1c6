import RamOverlay.Ascending
import RamOverlay.Flow.Graph
import RamOverlay.Traced

/-!
# Calls between routines

Which blocks call which routines. A call goes to the block that starts with the called label, in
whatever routine; where several do, the last one counts. Labels that start no block are kept aside,
in ascending order.
-/

namespace RamOverlay

/-- A block of a program, by its routine. -/
structure BlockRef where
  routine : Nat
  block : BlockId
  deriving DecidableEq, Repr

/-- A call: the calling block, and the block that is called. -/
structure CallEdge where
  caller : BlockRef
  callee : BlockRef
  deriving DecidableEq, Repr

/-- The calls of a program. -/
structure CallGraph where
  /-- The calls whose target is known, in the order of their instructions. -/
  edges : List CallEdge := []
  unknown : List String := []
  deriving DecidableEq, Repr

namespace CallGraph

def blocks (graphs : List Graph) : List (BlockRef × Block) :=
  graphs.zipIdx.flatMap fun (graph, routine) =>
    graph.entries.map fun (block, node) => (⟨routine, block⟩, node.block)

/-- The labels at which blocks start, with the blocks. -/
def entrances (graphs : List Graph) : List (String × BlockRef) :=
  (blocks graphs).filterMap fun (place, block) => block.label?.map fun label => (label, place)

/-- The last block that starts with a label. -/
def entrance? (entrances : List (String × BlockRef)) (label : String) : Option BlockRef :=
  ((entrances.filter (·.1 == label)).getLast?).map (·.2)

/-- The calls with a label for their destination: the calling block and the label. -/
def sites (graphs : List Graph) : List (BlockRef × String) :=
  (blocks graphs).flatMap fun (place, block) =>
    (block.calls.filterMap (·.destination.label?)).map fun label => (place, label)

/-- The calls of a program, without what is reported about them. -/
def ofGraphs (graphs : List Graph) : CallGraph :=
  let entrances := entrances graphs
  let sites := sites graphs
  { edges := sites.filterMap fun (caller, label) =>
      (entrance? entrances label).map fun callee => { caller, callee }
    unknown := Ascending.ofList <|
      (sites.map (·.2)).filter fun label => (entrance? entrances label).isNone }

/-- Collects the calls of all routines, and tells about targets that no block defines. -/
def build (graphs : List Graph) : Traced CallGraph :=
  let calls := ofGraphs graphs
  { value := calls
    events := if calls.unknown.isEmpty then [] else [.unknownCallTargets calls.unknown] }

def callsFrom (calls : CallGraph) (caller : BlockRef) : List CallEdge :=
  calls.edges.filter (·.caller == caller)

/-- Those of the first `count` routines that are never called, in order. -/
def roots (calls : CallGraph) (count : Nat) : List Nat :=
  (List.range count).filter fun routine => calls.edges.all (·.callee.routine != routine)

end CallGraph

end RamOverlay
