import RamOverlay.Command.Options
import RamOverlay.Command.Table
import RamOverlay.Placement.MathProg

/-!
# Running commands

What the commands do on a host. Each of them loads the units, builds the program and finds the
execution counts; then `analyze` prints a table, `export` writes the placement problem, and
`transform` chooses a placement and relocates the units. The result is the exit status: zero if all
went well, one if the command failed, two if the command line was not understood.
-/

namespace RamOverlay.Command

variable {m : Type → Type} [Monad m]

/-- Loads units from files; each is named by its path. -/
def load (host : Host m) (program : Program) : List String → Action m Program
  | [] => pure program
  | path :: rest => do
    let text ← host.readFile path .file
    let unit ← host.recorded (SourceUnit.parse path text)
    load host (program.addUnit unit) rest

/-- Loads and builds a program and finds its execution counts. -/
def prepare (host : Host m) (config : Config) (files : List String) (profile? : Option String) :
    Action m Program := do
  let program ← load host { config } files
  let program ← host.attempt program.build.run
  let program ← host.recorded program.estimate
  match profile? with
  | none => return program
  | some profile =>
    let text ← host.readFile profile .profileFile
    let (program, applied) ← host.recorded (program.applyProfile text)
    match applied with
    | .error e => throw (.program e)
    | .ok applied =>
      if applied = 0 then host.warning "iteration profile matched no basic block"
      return program

def reportColumns : List Column :=
  [⟨"unit", .left⟩, ⟨"routine", .left⟩, ⟨"blocks", .right⟩, ⟨"loops", .right⟩,
    ⟨"max iterations", .right⟩]

/-- The row of a routine; one without a function label is named by its first line. -/
def reportRow (graph : Graph) : List String :=
  let line := match graph.blocks.head? with
    | some block => block.line
    | none => 0
  [graph.unit, graph.routineName ("line " ++ Text.decimal line), Text.decimal graph.size,
    Text.decimal graph.loopHeaders.length,
    Text.decimal (graph.nodes.foldl (fun most node => max most node.iterations) 0)]

/-- The table of all routines that have blocks. -/
def report (program : Program) : Table :=
  { columns := reportColumns
    rows := (program.graphs.filter fun graph => !graph.nodes.isEmpty).map reportRow }

/-- Tells about the routines, and warns of calls that nothing in the files answers. -/
def analyzeFiles (host : Host m) (files : List String) (estimate : EstimateOptions) :
    Action m Unit := do
  let program ← prepare host (estimate.config {} "r5") files estimate.profile?
  host.tell "\nRoutines"
  host.print (report program).render
  let summary := program.summary
  unless summary.unknownCalls.isEmpty do
    host.warning ("calls resolved at link time: " ++ Text.joinWith ", " summary.unknownCalls)
  host.success (Text.decimal summary.units ++ " units, " ++ Text.decimal summary.routines
    ++ " routines, " ++ Text.decimal summary.blocks ++ " blocks, "
    ++ Text.decimal summary.loopHeaders ++ " loop headers")

/-- Reads the files, builds the program and tells how much there is of it. -/
def prepareAndTell (host : Host m) (config : Config) (files : List String)
    (profile? : Option String) : Action m Program := do
  let program ← prepare host config files profile?
  let summary := program.summary
  host.success
    (Text.decimal summary.routines ++ " routines, " ++ Text.decimal summary.blocks ++ " blocks")
  return program

/-- Writes the data for the solver. The sizes that were found on the way go to the cache. -/
def exportProblem (host : Host m) (files : List String) (output : String)
    (estimate : EstimateOptions) (placement : PlacementOptions) (size : SizeOptions) :
    Action m Unit := do
  let program ← prepareAndTell host (estimate.config placement "r5") files estimate.profile?
  let sizing ← host.openSizing size
  let (problem, cache) ← host.problem program sizing
  let _ ← host.flushCache sizing.file? cache
  host.writeFile output problem.mathprog
  host.success "Placement problem written"
  host.written output

/-- What the solver prints when it has found the best placement. -/
def optimalMark : String := "INTEGER OPTIMAL SOLUTION FOUND"

/-- Hands a problem to the solver and reads its answer. -/
def solve (host : Host m) (model : String) (problem : PlacementProblem) : Action m Decision := do
  match ← ExceptT.lift host.scratch with
  | .error reason => throw (.file reason)
  | .ok directory =>
    let data := directory ++ "/ilp.data"
    let answer := directory ++ "/solution.csv"
    host.writeFile data problem.mathprog
    match ← ExceptT.lift (host.run "glpsol" ["-d", data, "-m", model, "-y", answer]) with
    | .error reason => throw (.solver ("failed to run glpsol: " ++ reason))
    | .ok result =>
      if result.success && Text.mentions optimalMark result.outputText then
        match Decision.parse (← host.readFile answer .decisionFile) with
        | .ok decision => return decision
        | .error e => throw (.program (.decision e))
      else throw (.solver (result.outputText ++ result.errorText))

/-- Places the blocks of a program; also counts those in RAM. -/
def place (host : Host m) (program : Program) (source : PlacementSource) (size : SizeOptions) :
    Action m (Program × Nat) := do
  match source with
  | .solver model =>
    let sizing ← host.openSizing size
    let (problem, cache) ← host.problem program sizing
    let decision ← solve host model problem
    let (program, _) ← host.recorded (program.applyDecision decision)
    let _ ← host.flushCache sizing.file? cache
    return (program, program.placedBlocks)
  | .file path =>
    match Decision.parse (← host.readFile path .decisionFile) with
    | .error e => throw (.program (.decision e))
    | .ok decision => host.recorded (program.applyDecision decision)
  | .forced =>
    if program.config.forced.isEmpty then
      host.warning "no --solve, --placement or --bb given; every block stays in flash"
    host.recorded program.placeForced

/-- Writes the rewritten files, one after the other; the first failure ends it. -/
def writeUnits (host : Host m) : List RelocatedUnit → Action m Unit
  | [] => pure ()
  | unit :: rest => do
    host.writeFile unit.outputPath unit.text
    writeUnits host rest

/-- Places blocks in RAM and rewrites all files for it. -/
def transformFiles (host : Host m) (files : List String) (source : PlacementSource)
    (register : String) (estimate : EstimateOptions) (placement : PlacementOptions)
    (size : SizeOptions) : Action m Unit := do
  let program ← prepareAndTell host (estimate.config placement register) files estimate.profile?
  let (program, placed) ← place host program source size
  host.success (Text.decimal placed ++ " blocks placed in RAM")
  let units ← host.attempt program.relocate
  writeUnits host units
  host.success (Text.decimal units.length ++ " units rewritten")
  for unit in units do
    host.written unit.outputPath

/-- Runs a command. -/
def perform (host : Host m) : Command → Action m Unit
  | .analyze files estimate => analyzeFiles host files estimate
  | .exportData files output estimate placement size =>
    exportProblem host files output estimate placement size
  | .transform files source register estimate placement size =>
    transformFiles host files source register estimate placement size

def version : String := "ovl 0.1.0"

def usage : String :=
  "Usage: ovl [-v | -s] analyze <FILES>... [-i <FILE>] [-e <N>]\n"
    ++ "       ovl [-v | -s] export <FILES>... [-o <FILE>] [placement and size options]\n"
    ++ "       ovl [-v | -s] transform <FILES>... [--solve -m <FILE> | --placement <FILE>]"
    ++ " [--register <REG>] [placement and size options]\n"

/-- Warnings are always recorded, anything else only where it is asked for. -/
def isRecorded (verbosity : Verbosity) (event : Event) : Bool :=
  verbosity.verbose || !verbosity.silent || event.level == .warning

/-- Runs a command line; gives the exit status. -/
def run (host : Host m) (words : List String) : m Nat := do
  match ofWords words with
  | .error .usage =>
    host.tell usage
    return 2
  | .error .help =>
    host.print usage
    return 0
  | .error .version =>
    host.print (version ++ "\n")
    return 0
  | .ok (command, verbosity) =>
    let host := { host with
      log := fun event => if isRecorded verbosity event then host.log event else pure () }
    match ← (perform host command).run with
    | .ok _ => return 0
    | .error e =>
      host.failure e.message
      return 1

end RamOverlay.Command
