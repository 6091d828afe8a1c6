import RamOverlay.Flow.Routine
import RamOverlay.Placement.Decision
import RamOverlay.Placement.Problem
import RamOverlay.Relocation.Unit
import RamOverlay.Total
import RamOverlay.Weight.Profile

/-!
# Programs

A program is a set of source units with the graphs of their routines and the calls between them.
`build` makes the graphs; counts and placements are attached to them; `relocate` writes the units
out for the placement.
-/

namespace RamOverlay

/-- A source program and what is known about it. -/
structure Program where
  config : Config := {}
  units : List SourceUnit := []
  graphs : List Graph := []
  calls : CallGraph := {}

/-- Why a step of the program fails. -/
inductive ProgramError where
  | noUnits
  /-- An instruction is to be both a call and a jump. -/
  | reclassify (error : ReclassifyError)
  | profile (error : ProfileError)
  | cost (error : CostError)
  | decision (error : DecisionError)
  | exit (error : ExitError)
  deriving DecidableEq, Repr

def ProgramError.message : ProgramError → String
  | noUnits => "no source units loaded"
  | reclassify error => "CFG error: " ++ error.message
  | profile error => "CFG error: " ++ error.message
  | cost error => "placement error: " ++ error.message
  | decision error => "placement error: " ++ error.message
  | exit error => error.message

/-- The numbers that are told about a program. -/
structure Summary where
  units : Nat
  routines : Nat
  blocks : Nat
  loopHeaders : Nat
  unknownCalls : List String
  deriving DecidableEq, Repr

/-- A rewritten file. -/
structure RelocatedUnit where
  name : String
  text : String
  stats : RelocationStats
  deriving DecidableEq, Repr

/-- The file for the new text, next to the source. -/
def RelocatedUnit.outputPath (unit : RelocatedUnit) : String := unit.name ++ ".out"

namespace Program

def addUnit (program : Program) (unit : SourceUnit) : Program :=
  { program with units := program.units ++ [unit] }

/-- The routines of all units in order; the first unit that has none ends it. -/
def routinesOf (labels : RoutineLabels) :
    List SourceUnit → Attempt ReclassifyError (List Graph)
  | [] => pure []
  | unit :: rest => do
    let graphs ← unit.routines labels
    let others ← routinesOf labels rest
    return graphs ++ others

/-- Finds the loops of each routine by itself. -/
def analyzeAll : List Graph → Traced (List Graph)
  | [] => pure []
  | graph :: rest => do
    let graph ← graph.analyzeLoops
    let others ← analyzeAll rest
    return graph :: others

/-- Makes the graphs of all routines, finds their loops and the calls between them. -/
def build (program : Program) : Attempt ProgramError Program :=
  if program.units.isEmpty then throw .noUnits
  else do
    let graphs ← (routinesOf (routineLabels program.units) program.units).adapt .reclassify
    let graphs ← analyzeAll graphs
    let calls ← CallGraph.build graphs
    Traced.report (.graphsBuilt program.units.length graphs.length)
    return { program with graphs, calls }

/-- Puts the estimated counts into the graphs. -/
def estimate (program : Program) : Traced Program := do
  let graphs ← program.calls.estimate program.config.assumptions program.graphs
  return { program with graphs }

/-- Replaces counts by those of a profile; the counts before a malformed line stay. -/
def applyProfile (program : Program) (text : String) :
    Traced (Program × Except ProgramError Nat) := do
  let result ← RamOverlay.applyProfile text program.graphs
  return ({ program with graphs := result.graphs },
    match result.applied with
    | .ok applied => .ok applied
    | .error e => .error (.profile e))

/-- The placement problem, with what is reported about the settings. -/
def problem {m : Type → Type} [Monad m] (program : Program) (oracle : SizeOracle m) :
    m (Traced (Except ProgramError PlacementProblem)) := do
  match ← (PlacementProblem.build oracle program.config program.graphs).run with
  | .ok problem =>
    return { value := .ok problem, events := program.config.unmatchedEvents program.graphs }
  | .error e => return { value := .error (.cost e) }

/-- Attaches a decision; also counts the blocks placed in RAM. -/
def applyDecision (program : Program) (decision : Decision) : Traced (Program × Nat) := do
  let (graphs, placed) ← decision.apply program.graphs
  return ({ program with graphs }, placed)

/-- Places the forced blocks in RAM; also counts them. -/
def placeForced (program : Program) : Traced (Program × Nat) := do
  let (graphs, placed) ← RamOverlay.placeForced program.config program.graphs
  return ({ program with graphs }, placed)

/-- How many blocks are in RAM. -/
def placedBlocks (program : Program) : Nat :=
  totalOf (fun graph => graph.ids.countP graph.inRam) program.graphs

/-- Rewrites one of the files. -/
def relocateUnit (program : Program) (unit : SourceUnit) : Attempt ExitError RelocatedUnit := do
  let (edits, stats) ← unit.relocate program.config.safeRegister program.graphs
  return { name := unit.name, text := unit.render edits, stats }

/-- The results up to the first error; the events are those of all results. -/
def firstError {ε α : Type} : List (Traced (Except ε α)) → Traced (Except ε (List α))
  | [] => pure (.ok [])
  | result :: rest => do
    let first ← result
    let others ← firstError rest
    return match first, others with
      | .error e, _ => .error e
      | .ok _, .error e => .error e
      | .ok a, .ok as => .ok (a :: as)

/-- Relocates the blocks of all units. The first unit with an error gives the error, after all were
tried. -/
def relocate (program : Program) : Traced (Except ProgramError (List RelocatedUnit)) := do
  let results ← firstError (program.units.map fun unit => (program.relocateUnit unit).run)
  return match results with
    | .ok units => .ok units
    | .error e => .error (.exit e)

def summary (program : Program) : Summary :=
  { units := program.units.length
    routines := program.graphs.length
    blocks := totalOf (·.size) program.graphs
    loopHeaders := totalOf (·.loopHeaders.length) program.graphs
    unknownCalls := program.calls.unknown }

end Program

end RamOverlay
