import RamOverlay.Command.Arguments
import RamOverlay.Command.Sizing
import RamOverlay.Number.Reading

/-!
# Commands and their options

The three commands, what each of them is told, and how the words of a command line become a command.
-/

namespace RamOverlay

/-- How the weights of the blocks are estimated. -/
structure EstimateOptions where
  profile? : Option String := none
  /-- How often every loop is taken to be run. -/
  loopEstimate : Nat := 10
  deriving DecidableEq, Repr

/-- What may be placed in RAM, and how much of it. -/
structure PlacementOptions where
  blocks : List BlockLocation := []
  specifiedOnly : Bool := false
  spareRam : Nat := 1000
  maxCycleFactor : Binary64 := ({} : Config).maxCycleFactor
  deriving DecidableEq, Repr

/-- Where the decision comes from. -/
inductive PlacementSource where
  | solver (model : String)
  /-- The answer of an earlier run of the solver. -/
  | file (path : String)
  /-- The forced blocks alone. -/
  | forced
  deriving DecidableEq, Repr

/-- What the user asks for, with the options that belong to it. -/
inductive Command where
  | analyze (files : List String) (estimate : EstimateOptions)
  | exportData (files : List String) (output : String) (estimate : EstimateOptions)
      (placement : PlacementOptions) (size : SizeOptions)
  | transform (files : List String) (source : PlacementSource) (register : String)
      (estimate : EstimateOptions) (placement : PlacementOptions) (size : SizeOptions)

/-- How much of what happens is told. -/
structure Verbosity where
  verbose : Bool := false
  silent : Bool := false
  deriving DecidableEq, Repr

/-- The settings of the program for these options; what they do not tell is left at its default. -/
def EstimateOptions.config (estimate : EstimateOptions) (placement : PlacementOptions)
    (register : String) : Config :=
  placement.blocks.foldl Config.withForced {
    safeRegister := register
    loopEstimate := estimate.loopEstimate
    spareRam := placement.spareRam
    maxCycleFactor := placement.maxCycleFactor
    specifiedOnly := placement.specifiedOnly }

namespace Command

open Arguments

def anyText (_ : String) : Bool := true

def fileName (value : String) : Bool := value ≠ ""

/-- A number that fits 32 bits; it may carry a minus sign if it is zero. -/
def wordOption? (value : String) : Option Nat :=
  match Text.integer? Decision.summaryLimit value.toList with
  | some (.ofNat n) => if n < Text.wordLimit then some n else none
  | _ => none

/-- The options that every command and the program itself understand. -/
def sharedSpecs : List OptionSpec :=
  [{ name := "verbose", letter? := some 'v' }, { name := "silent", letter? := some 's' },
    { name := "help", letter? := some 'h' }]

def programSpecs : List OptionSpec := { name := "version", letter? := some 'V' } :: sharedSpecs

def estimateSpecs : List OptionSpec :=
  [{ name := "iterations", letter? := some 'i', accepts? := some fileName },
    { name := "estimate", letter? := some 'e'
      accepts? := some fun value => (Text.double? value).isSome }]

def placementSpecs : List OptionSpec :=
  [{ name := "bb", repeatable := true
     accepts? := some fun value => (BlockLocation.read? value).isSome },
    { name := "specified-only" },
    { name := "maxram", accepts? := some fun value => (wordOption? value).isSome },
    { name := "maxtime", letter? := some 't'
      accepts? := some fun value => (Binary64.read? value).isSome }]

def sizeSpecs : List OptionSpec :=
  [{ name := "toolchain", accepts? := some anyText },
    { name := "size-cache", accepts? := some fileName }]

/-- The options about the file for a placement problem. -/
def outputSpecs : List OptionSpec :=
  [{ name := "output", letter? := some 'o', accepts? := some fileName }]

def sourceSpecs : List OptionSpec :=
  [{ name := "solve" }, { name := "model", letter? := some 'm', accepts? := some fileName },
    { name := "placement", accepts? := some fileName },
    { name := "register", accepts? := some anyText }]

def estimateOptions (found : Found) : EstimateOptions :=
  { profile? := found.value? "iterations"
    loopEstimate := ((found.value? "estimate").bind Text.double?).getD 10 }

def placementOptions (found : Found) : PlacementOptions :=
  { blocks := (found.values "bb").filterMap BlockLocation.read?
    specifiedOnly := found.has "specified-only"
    spareRam := ((found.value? "maxram").bind wordOption?).getD 1000
    maxCycleFactor :=
      ((found.value? "maxtime").bind Binary64.read?).getD ({} : Config).maxCycleFactor }

def sizeOptions (found : Found) : SizeOptions :=
  { toolchain? := found.value? "toolchain", cacheFile? := found.value? "size-cache" }

/-- The source of a placement: a solver needs a model and excludes a file. -/
def placementSource (found : Found) : Except Stop PlacementSource :=
  if found.has "solve" then
    match found.value? "model", found.value? "placement" with
    | some model, none => .ok (.solver model)
    | _, _ => .error .usage
  else
    match found.value? "placement" with
    | some path => .ok (.file path)
    | none => .ok .forced

/-- How much is recorded, unless both more and less is asked for in one place. -/
def verbosity (found : Found) : Except Stop Verbosity :=
  if found.has "verbose" && found.has "silent" then .error .usage
  else .ok { verbose := found.has "verbose", silent := found.has "silent" }

/-- Reads the words behind the name of a command. -/
def readOptions (specs : List OptionSpec) (words : List String) : Except Stop Found := do
  let (found, _) ← Arguments.read (specs ++ sharedSpecs) false {} words
  if found.operands.isEmpty then .error .usage else .ok found

def helpTopics : List String := ["analyze", "export", "transform", "help"]

/-- What asking for help about the words comes to: there is help about one topic or about none. -/
def helpFor : List String → Stop
  | [] => .help
  | [topic] => if topic ∈ helpTopics then .help else .usage
  | _ => .usage

/-- Reads the command and its own options. Each command knows its own set of them. -/
def readCommand : List String → Except Stop (Command × Verbosity)
  | [] => .error .usage
  | name :: words =>
    if name = "analyze" then do
      let found ← readOptions estimateSpecs words
      return (.analyze found.operands (estimateOptions found), ← verbosity found)
    else if name = "export" then do
      let found ← readOptions (outputSpecs ++ estimateSpecs ++ placementSpecs ++ sizeSpecs) words
      let verbosity ← verbosity found
      return (.exportData found.operands ((found.value? "output").getD "ilp.data")
        (estimateOptions found) (placementOptions found) (sizeOptions found), verbosity)
    else if name = "transform" then do
      let found ← readOptions (sourceSpecs ++ estimateSpecs ++ placementSpecs ++ sizeSpecs) words
      let verbosity ← verbosity found
      return (.transform found.operands (← placementSource found)
        ((found.value? "register").getD "r5") (estimateOptions found) (placementOptions found)
        (sizeOptions found), verbosity)
    else if name = "help" then .error (helpFor words)
    else .error .usage

/-- Reads a whole command line. The switches for the verbosity may stand before or behind the
command. -/
def ofWords (words : List String) : Except Stop (Command × Verbosity) := do
  let (found, rest) ← Arguments.read programSpecs true {} words
  let (command, inner) ← readCommand rest
  let outer ← verbosity found
  return (command, { verbose := outer.verbose || inner.verbose
                     silent := outer.silent || inner.silent })

end Command

end RamOverlay
