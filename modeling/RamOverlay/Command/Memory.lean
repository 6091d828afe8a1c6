import RamOverlay.Command.Host

/-!
# Files in memory

A host whose files are a table, on which commands can be run and reasoned about without a file
system. Paths are followed one component after the other, so a path through a directory that is not
there leads nowhere, and neither does one with a name that is too long. What tools do is a
parameter.
-/

namespace RamOverlay

/-- The files and directories of a run, by absolute path, and what it printed. -/
structure Memory where
  files : Keyed String (List UInt8) := []
  directories : List String := ["/"]
  /-- The directory of the run, which is also the home directory. -/
  workplace : String := "/"
  tools : List String := []
  output : String := ""
  told : List String := []
  scratches : Nat := 0
  deriving DecidableEq, Repr

namespace Memory

def absent : ReadError := .missing "No such file or directory (os error 2)"

def notDirectory : ReadError := .unreadable "Not a directory (os error 20)"

def isDirectory : ReadError := .unreadable "Is a directory (os error 21)"

/-- A name or a path has too many bytes. -/
def tooLong : ReadError := .unreadable "File name too long (os error 36)"

def brokenPath : ReadError := .unreadable "file name contained an unexpected NUL byte"

def mostNameBytes : Nat := 255

def mostPathBytes : Nat := 4095

def pathOf (components : List String) : String := "/" ++ Text.joinWith "/" components

/-- Follows components from a directory on; the last one need not be there. -/
def follow (memory : Memory) (directory : List String) :
    List String → Except ReadError (List String)
  | [] => .ok directory
  | name :: rest =>
    let here := pathOf directory
    if (memory.files.get? here).isSome then .error notDirectory
    else if !memory.directories.contains here then .error absent
    else if name = "" ∨ name = "." then follow memory directory rest
    else if name = ".." then follow memory directory.dropLast rest
    else if name.utf8ByteSize > mostNameBytes then .error tooLong
    else follow memory (directory ++ [name]) rest

/-- The absolute path that a path stands for. -/
def resolve (memory : Memory) (path : String) : Except ReadError String :=
  let absolute := if Text.startsWith "/" path then path else memory.workplace ++ "/" ++ path
  if path.contains '\x00' then .error brokenPath
  else if path.utf8ByteSize > mostPathBytes then .error tooLong
  else (memory.follow [] (Text.piecesOf '/' absolute)).map pathOf

/-- The bytes of a file. A directory on the way there has to exist, and the file must be none. -/
def readBytes (memory : Memory) (path : String) : Except ReadError (List UInt8) := do
  let path ← memory.resolve path
  match memory.files.get? path with
  | some bytes => return bytes
  | none => throw (if memory.directories.contains path then isDirectory else absent)

def read (memory : Memory) (path : String) : Except ReadError String :=
  memory.readBytes path >>= textOfFile

/-- Puts a file at its place. Directories are neither made nor replaced. -/
def writeBytes (memory : Memory) (path : String) (bytes : List UInt8) :
    Except ReadError Memory := do
  let path ← memory.resolve path
  if memory.directories.contains path then throw isDirectory
  return { memory with files := memory.files.put path bytes }

def write (memory : Memory) (path text : String) : Except ReadError Memory :=
  memory.writeBytes path (Text.Utf8.encode text)

/-- The directories that a path leads through, from the root on. -/
def above (path : String) : List String :=
  let components := (Text.piecesOf '/' path).drop 1
  (List.range components.length).map fun count => pathOf (components.take count)

/-- Makes a directory with all that are above it. -/
def addDirectory (memory : Memory) (path : String) : Memory :=
  { memory with directories := path :: above path ++ memory.directories }

/-- Puts a file somewhere and makes the directories above it. -/
def addFile (memory : Memory) (path text : String) : Memory :=
  { memory with
    files := memory.files.put path (Text.Utf8.encode text)
    directories := memory.directories ++ above path }

/-- A file that can be run as well. -/
def addTool (memory : Memory) (path text : String) : Memory :=
  { memory.addFile path text with tools := path :: memory.tools }

/-- The memory at the beginning of a run in the directory `workplace`, with files and tools there;
tools go into `bin`. -/
def ofFiles (workplace : String) (files tools : List (String × String)) : Memory :=
  let empty : Memory := { workplace, directories := workplace :: above workplace }
  let filled := files.foldl (fun memory (path, text) =>
    memory.addFile (workplace ++ "/" ++ path) text) empty
  tools.foldl (fun memory (name, text) =>
    memory.addTool (workplace ++ "/bin/" ++ name) text) filled

/-- The files in the workplace that were not the same before, by their path from there. -/
def changesSince (memory before : Memory) : List (String × List UInt8) :=
  let start := memory.workplace ++ "/"
  (memory.files.filter fun (path, bytes) =>
    Text.startsWith start path && before.files.get? path != some bytes).map fun (path, bytes) =>
      (String.ofList (path.toList.drop start.length), bytes)

/-- A tool has to be a script that begins by naming its interpreter. -/
def isScript (bytes : List UInt8) : Bool := (Text.Utf8.encode "#!").isPrefixOf bytes

/-- The bytes of a tool; one that is named without a directory is looked up in `bin`. -/
def tool (memory : Memory) (program : String) : Except ReadError (List UInt8) := do
  let path ← memory.resolve (if program.contains '/' then program else "bin/" ++ program)
  match memory.files.get? path with
  | none => throw absent
  | some bytes =>
    if !memory.tools.contains path then throw (.unreadable "Permission denied (os error 13)")
    else if !isScript bytes then throw (.unreadable "Exec format error (os error 8)")
    else return bytes

/-- The host over files in memory; `interpret` tells what a tool with these bytes does. -/
def host (interpret : List UInt8 → List String → StateM Memory ToolOutput) :
    Host (StateM Memory) where
  read path := return (← get).read path
  write path text := do
    match (← get).write path text with
    | .ok memory => set memory; return .ok ()
    | .error e => return .error e.reason
  run program arguments := do
    match (← get).tool program with
    | .ok bytes => .ok <$> interpret bytes arguments
    | .error e => return .error e.reason
  scratch := do
    let memory ← get
    let directory := "/tmp/" ++ Text.decimal memory.scratches
    set { memory with
      scratches := memory.scratches + 1
      directories := directory :: "/tmp" :: memory.directories }
    return .ok directory
  home? := return some (← get).workplace
  print text := modify fun memory => { memory with output := memory.output ++ text }
  tell line := modify fun memory => { memory with told := memory.told ++ [line] }
  log _ := return ()

end Memory

end RamOverlay
