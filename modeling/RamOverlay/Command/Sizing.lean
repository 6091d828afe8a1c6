import RamOverlay.Command.Host
import RamOverlay.Size.Assembler

/-!
# Sizes for commands

The size oracle of a command: an assembler behind a cache that is kept in a file.
-/

namespace RamOverlay

/-- Where the sizes of instructions come from. -/
structure SizeOptions where
  /-- The beginning of the names of the assembler tools; looked for if not given. -/
  toolchain? : Option String := none
  /-- The file of the cache; in the home directory if not given. -/
  cacheFile? : Option String := none
  deriving DecidableEq, Repr

/-- The file of the cache in the home directory. -/
def defaultCacheFile : String := ".asmsize.json"

namespace Host

variable {m : Type → Type} [Monad m]

/-- Runs a tool that has to succeed; its output, or what it reports. -/
def runTool (host : Host m) (program : String) (arguments : List String) :
    ExceptT String m String := do
  match ← ExceptT.lift (host.run program arguments) with
  | .error reason => throw ("failed to run " ++ program ++ ": " ++ reason)
  | .ok result =>
    if result.success then return result.outputText else throw (Text.strip result.errorText)

/-- Asks the assembler: the instruction is assembled alone, and its object file is measured. -/
def measure (host : Host m) (toolchain : String) (query : SizeQuery) : ExceptT String m Nat := do
  let directory ← ExceptT.mk host.scratch
  let source := directory ++ "/insn.s"
  let object := directory ++ "/insn.o"
  let text := Assembler.source Assembler.defaultCpu query.text query.target?
  ExceptT.mk (host.write source text)
  let _ ← host.runTool (toolchain ++ "gcc")
    ["-c", "-mthumb", "-mcpu=" ++ Assembler.defaultCpu, "-x", "assembler", "-o", object, source]
  let listing ← host.runTool (toolchain ++ "objdump") ["-d", object]
  match Assembler.listingSize? listing with
  | some size => return size
  | none => throw "no instruction in object code"

/-- An oracle that measures what an assembler makes of each instruction. -/
def assembler (host : Host m) (toolchain : String) : SizeOracle m := fun query =>
  (host.measure toolchain query).adapt fun reason => { insn := query.text, reason }

/-- The first of the toolchains whose compiler can be found. -/
def findToolchain? (host : Host m) : List String → m (Option String)
  | [] => pure none
  | toolchain :: rest => do
    match ← host.run "which" [toolchain ++ "gcc"] with
    | .ok { success := true, .. } => return some toolchain
    | _ => host.findToolchain? rest

def toolchain (host : Host m) (options : SizeOptions) : m String := do
  match options.toolchain? with
  | some toolchain => return toolchain
  | none => return (← host.findToolchain? Assembler.toolchains).getD Assembler.defaultToolchain

/-- The file of the cache; none without a home directory. -/
def cacheFile? (host : Host m) (options : SizeOptions) : m (Option String) := do
  match options.cacheFile? with
  | some file => return some file
  | none => return (← host.home?).map fun home => home ++ "/" ++ defaultCacheFile

/-- The text of the file of a cache; none if there is no file. -/
def readCache (host : Host m) (file : String) : Action m (Option String) := do
  match ← ExceptT.lift (host.read file) with
  | .ok text => return some text
  | .error (.missing _) => return none
  | .error (.unreadable reason) => throw (.cache (.file reason))

/-- The cache as its file has it; a file that cannot be read is an error, a missing one is not. -/
def loadCache (host : Host m) (file? : Option String) : Action m SizeCache := do
  match file? with
  | none => return {}
  | some file =>
    match SizeCache.load (← host.readCache file) with
    | .ok cache => return cache
    | .error e => throw (.cache e)

/-- Writes a cache back to its file; the cache after that. -/
def flushCache (host : Host m) (file? : Option String) (cache : SizeCache) :
    Action m SizeCache := do
  match file? with
  | none => return cache
  | some file =>
    if cache.dirty then
      match cache.flush (← host.readCache file) with
      | .error e => throw (.cache e)
      | .ok (cache, none) => return cache
      | .ok (cache, some text) =>
        match ← ExceptT.lift (host.write file text) with
        | .ok _ => return cache
        | .error reason => throw (.cache (.file reason))
    else return cache

/-- An oracle that asks the assembler and remembers its answers, and the file they are kept in. -/
structure Sizing (m : Type → Type) where
  oracle : SizeOracle (StateT Memo m)
  file? : Option String
  cache : SizeCache

/-- Looks for the tools, then for the cache. -/
def openSizing (host : Host m) (options : SizeOptions) : Action m (Sizing m) := do
  let toolchain ← host.toolchain options
  let file? ← host.cacheFile? options
  let cache ← host.loadCache file?
  return { oracle := (host.assembler toolchain).cached, file?, cache }

/-- The placement problem of a program, and the cache after its instructions were sized. -/
def problem (host : Host m) (program : Program) (sizing : Sizing m) :
    Action m (PlacementProblem × SizeCache) := do
  let (result, memo) ← ExceptT.lift ((program.problem sizing.oracle).run { cache := sizing.cache })
  let problem ← host.attempt result
  return (problem, memo.cache)

end Host

end RamOverlay
