import RamOverlay.Flow.Call
import RamOverlay.Flow.Nesting
import RamOverlay.Weight.Count

/-!
# Estimated execution counts

How often each block is run, if every loop is run a fixed number of times. A block nested in `d`
loops runs `e ^ d` times as often as its routine; a loop header of depth `d`, its own loop counted,
`e ^ (d + 1) * (e + 1)` times. A routine runs as often as the block that calls it, and each block
keeps the greatest count of all chains of calls from a routine that is never called.
-/

namespace RamOverlay

/-- What the estimate assumes: how often a loop runs, and how deep calls go. -/
structure Assumptions where
  loopEstimate : Nat
  /-- The greatest number of calls in a chain that is followed. -/
  maxDepth : Nat
  deriving DecidableEq, Repr

/-- The count of a block at a nesting depth in a routine that is run `base` times. -/
def blockCount (estimate base depth : Nat) (isHeader : Bool) : Nat :=
  if isHeader then
    Count.mul (Count.mul (Count.pow estimate (depth + 1)) (Count.succ estimate)) base
  else Count.mul (Count.pow estimate depth) base

namespace Graph

/-- The count of a block in a routine that is run `base` times, or the count that it has if that is
greater. -/
def countOf (graph : Graph) (estimate base : Nat) (id : BlockId) (node : Node) : Traced Nat := do
  let headers ← graph.loopHeadersOf id
  let count := blockCount estimate base headers.length (graph.isLoopHeader id)
  return max count node.iterations

end Graph

namespace CallGraph

def setRoutine (graphs : List Graph) (routine : Nat) (graph : Graph) : List Graph :=
  graphs.set routine graph

/-- Estimates the blocks of a routine one after the other; `visit` goes into a called routine with
the count of the calling block. -/
def estimateBlocks (calls : CallGraph) (estimate base routine : Nat)
    (visit : Nat → Nat → List Graph → Traced (List Graph)) :
    List BlockId → List Graph → Traced (List Graph)
  | [], graphs => pure graphs
  | id :: rest, graphs =>
    match graphs[routine]? with
    | none => pure graphs
    | some graph =>
      match graph.nodes[id]? with
      | none => pure graphs
      | some node => do
        let count ← graph.countOf estimate base id node
        let graphs := setRoutine graphs routine
          (graph.modify id fun node => { node with iterations := count })
        let graphs ← (calls.callsFrom ⟨routine, id⟩).foldlM
          (fun graphs edge => visit edge.callee.routine count graphs) graphs
        calls.estimateBlocks estimate base routine visit rest graphs

/-- Estimates a routine that is run `base` times, and all that it calls. The fuel is one more than
the number of calls that may still follow. -/
def propagate (calls : CallGraph) (assumptions : Assumptions) :
    Nat → Nat → Nat → List Graph → Traced (List Graph)
  | 0, routine, _, graphs =>
    match graphs[routine]? with
    | none => pure graphs
    | some graph => do
      Traced.report (.callDepthLimit (graph.routineName graph.unit) (assumptions.maxDepth + 1))
      return graphs
  | fuel + 1, routine, base, graphs =>
    match graphs[routine]? with
    | none => pure graphs
    | some graph => do
      let graph ← graph.analyzeLoops
      calls.estimateBlocks assumptions.loopEstimate base routine
        (calls.propagate assumptions fuel) graph.ids (setRoutine graphs routine graph)

/-- Estimates the routines, each run once, and all that they call. -/
def propagateAll (calls : CallGraph) (assumptions : Assumptions) :
    List Nat → List Graph → Traced (List Graph)
  | [], graphs => pure graphs
  | root :: rest, graphs => do
    let graphs ← calls.propagate assumptions (assumptions.maxDepth + 1) root 1 graphs
    calls.propagateAll assumptions rest graphs

/-- Estimates how often every block is run, from the routines that are never called. -/
def estimate (calls : CallGraph) (assumptions : Assumptions) (graphs : List Graph) :
    Traced (List Graph) := do
  let roots := calls.roots graphs.length
  if roots.isEmpty then Traced.report .noRootRoutine
  calls.propagateAll assumptions roots graphs

end CallGraph

end RamOverlay
