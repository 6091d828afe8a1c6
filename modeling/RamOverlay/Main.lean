import RamOverlay.Command.Run

/-!
# The program

The commands on the file system. Tools are not run from here: a command that needs the assembler or
the solver fails, unless the size cache has all sizes and the placement comes from a file.
-/

open RamOverlay

def readError (error : IO.Error) : ReadError :=
  match error with
  | .noFileOrDirectory .. => .missing (toString error)
  | _ => .unreadable (toString error)

/-- Runs an action; a failure becomes its wording. -/
def wording {α : Type} (action : IO α) : IO (Except String α) := do
  match ← action.toBaseIO with
  | .ok a => return .ok a
  | .error e => return .error (toString e)

def eventLine (event : Event) : String :=
  let level := match event.level with
    | .info => "INFO"
    | .warning => "WARN"
  let fields := event.fields.map fun (name, value) => " " ++ name ++ "=" ++ value
  level ++ " " ++ event.message ++ String.join fields

def fileSystem : Host IO where
  read path := do
    match ← (IO.FS.readBinFile path).toBaseIO with
    | .ok bytes => return textOfFile bytes.toList
    | .error e => return .error (readError e)
  write path text := wording (IO.FS.writeFile path text)
  run _ _ := return .error "tools are not run from here"
  scratch := wording (toString <$> IO.FS.createTempDir)
  home? := IO.getEnv "HOME"
  print text := do
    let output ← IO.getStdout
    output.putStr text
    output.flush
  tell line := do (← IO.getStderr).putStrLn line
  log event := do (← IO.getStderr).putStrLn (eventLine event)

def main (words : List String) : IO UInt32 := do
  let status ← Command.run fileSystem words
  return UInt32.ofNat status
