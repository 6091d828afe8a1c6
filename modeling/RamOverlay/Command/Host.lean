import RamOverlay.Program
import RamOverlay.Size.Cache
import RamOverlay.Text.Utf8

/-!
# What commands need from outside

Files, tools and output, as operations of a monad. The commands are written over any such host, so
that they can be run against files in memory as well as against a file system.
-/

namespace RamOverlay

/-- Why a file gives no text: it is not there, or it is there and cannot be read. -/
inductive ReadError where
  | missing (reason : String)
  | unreadable (reason : String)
  deriving DecidableEq, Repr

def ReadError.reason : ReadError → String
  | missing reason | unreadable reason => reason

namespace ReadError

def noText : ReadError := .unreadable "stream did not contain valid UTF-8"

end ReadError

/-- The text of a file, which has to be UTF-8 throughout. -/
def textOfFile (bytes : List UInt8) : Except ReadError String :=
  match Text.Utf8.decode? bytes with
  | some text => .ok text
  | none => .error .noText

/-- What a tool leaves when it ends: its success and its two streams. -/
structure ToolOutput where
  success : Bool
  output : List UInt8 := []
  errors : List UInt8 := []
  deriving DecidableEq, Repr

namespace ToolOutput

/-- The output of a tool as a text; bytes that are no UTF-8 are replaced. -/
def outputText (result : ToolOutput) : String := Text.Utf8.decode result.output

def errorText (result : ToolOutput) : String := Text.Utf8.decode result.errors

end ToolOutput

/-- What the commands need from outside, in any monad: files, tools, and somewhere to tell the user.
-/
structure Host (m : Type → Type) where
  read : String → m (Except ReadError String)
  /-- Writes a file, or tells why it cannot be written. -/
  write : String → String → m (Except String Unit)
  /-- Runs a tool with arguments, or tells why it cannot be started. -/
  run : String → List String → m (Except String ToolOutput)
  /-- Makes a directory for files that are needed for a moment. -/
  scratch : m (Except String String)
  home? : m (Option String)
  print : String → m Unit
  /-- Prints a line for the user beside the output. -/
  tell : String → m Unit
  log : Event → m Unit

/-- Why a command fails. Each kind has its own way to be told. -/
inductive CommandError where
  | program (error : ProgramError)
  | file (reason : String)
  | profileFile (reason : String)
  | decisionFile (reason : String)
  | cache (error : CacheError)
  | solver (report : String)
  deriving DecidableEq, Repr

/-- The text that the user gets to read. -/
def CommandError.message : CommandError → String
  | program error => error.message
  | file reason => "IO error: " ++ reason
  | profileFile reason => "CFG error: IO error: " ++ reason
  | decisionFile reason => "placement error: IO error: " ++ reason
  | cache error => "size oracle error: " ++ error.message
  | solver report => "solver failed: " ++ report

/-- A part of a command that can fail. -/
abbrev Action (m : Type → Type) := ExceptT CommandError m

namespace Host

variable {m : Type → Type} [Monad m]

def logAll (host : Host m) : List Event → m Unit
  | [] => pure ()
  | event :: rest => do
    host.log event
    host.logAll rest

/-- Records the events of a result and gives its value. -/
def recorded {α : Type} (host : Host m) (result : Traced α) : Action m α :=
  ExceptT.lift do
    host.logAll result.events
    return result.value

/-- Runs a pure part of the program, and records what it reports even if it fails. -/
def attempt {α : Type} (host : Host m) (result : Traced (Except ProgramError α)) : Action m α := do
  match ← host.recorded result with
  | .ok a => return a
  | .error e => throw (.program e)

/-- The text of a file; what an unreadable one means is up to the caller. -/
def readFile (host : Host m) (path : String) (error : String → CommandError) :
    Action m String := do
  match ← ExceptT.lift (host.read path) with
  | .ok text => return text
  | .error e => throw (error e.reason)

/-- Writes a file, or fails with the reason that the host gives. -/
def writeFile (host : Host m) (path text : String) : Action m Unit := do
  match ← ExceptT.lift (host.write path text) with
  | .ok _ => return ()
  | .error reason => throw (.file reason)

def success (host : Host m) (message : String) : m Unit := host.tell ("✓ " ++ message)

def failure (host : Host m) (message : String) : m Unit := host.tell ("✗ " ++ message)

def warning (host : Host m) (message : String) : m Unit := host.tell ("! " ++ message)

def written (host : Host m) (path : String) : m Unit := host.tell ("  → " ++ path)

end Host

end RamOverlay
