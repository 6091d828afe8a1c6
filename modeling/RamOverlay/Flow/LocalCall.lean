import RamOverlay.Flow.Component
import RamOverlay.Traced

/-!
# Calls inside a routine

Compilers use a call as a jump over a long distance inside a function. A call whose target lies in
the weak component of its own block is taken for such a jump: it is suppressed, and its edge goes to
the target and not to the next block. A call of the routine by itself looks the same, so each change
is reported.
-/

namespace RamOverlay

/-- A call to be suppressed: the block that it ends, and the block that it jumps to. -/
structure LocalCall where
  block : BlockId
  target : BlockId
  label : String
  deriving DecidableEq, Repr

namespace Graph

/-- The first block that has a label anywhere in it. -/
def blockDefining? (graph : Graph) (label : String) : Option BlockId :=
  graph.nodes.findIdx? (·.block.containsLabel label)

/-- The call at the end of a block that has to be suppressed, if there is one. -/
def localCall? (graph : Graph) (components : List Nat) (id : BlockId) (block : Block) :
    Option LocalCall := do
  if !block.tail.isCall then none
  let label ← block.tail.destination.label?
  let target ← graph.blockDefining? label
  if components[target]? = components[id]? then some { block := id, target, label } else none

/-- The calls that have to be suppressed, in the order of their blocks. -/
def localCalls (graph : Graph) : List LocalCall :=
  let components := graph.components
  graph.entries.filterMap fun (id, node) => graph.localCall? components id node.block

/-- Makes the call a jump: its edge goes to the target now, and no longer to the next block. -/
def suppressed (call : LocalCall) (block : Block) : Except ReclassifyError Block := do
  let tail ← block.tail.suppressCall
  let kept := block.successors.filter (· ≠ call.block + 1)
  return { block.withTail tail with
    successors := if call.target ∈ kept then kept else kept ++ [call.target] }

/-- Suppresses the calls one after the other, each in the block as the ones before have left it. -/
def suppressAll (graph : Graph) : List LocalCall → Except ReclassifyError Graph
  | [] => .ok graph
  | call :: rest =>
    match graph.block? call.block with
    | none => graph.suppressAll rest
    | some block => do
      let block ← suppressed call block
      (graph.modify call.block fun node => { node with block }).suppressAll rest

def localCallEvent (graph : Graph) (call : LocalCall) : Event :=
  .localCall graph.unit
    (match graph.block? call.block with
      | some block => block.tail.line
      | none => 0)
    call.label

/-- The graph in which calls inside a routine are jumps. -/
def correctLocalCalls (graph : Graph) : Attempt ReclassifyError Graph :=
  let calls := graph.localCalls
  { value := graph.suppressAll calls, events := calls.map graph.localCallEvent }

end Graph

end RamOverlay
