import RamOverlay.Text.Split

/-!
# Command-line arguments

Words of a command line, told apart as options, their values, and operands. An option has a long
name after two dashes and possibly a letter after one; letters may be joined. The value of an option
stands behind an equals sign, behind its letter, or in the next word, which then must not look like
an option. After two dashes alone, all words are operands.
-/

namespace RamOverlay.Arguments

/-- An option of the command line: its names, and whether it takes a value. -/
structure OptionSpec where
  name : String
  letter? : Option Char := none
  /-- For an option with a value, which values it accepts. -/
  accepts? : Option (String → Bool) := none
  repeatable : Bool := false

/-- Why the words of a command line do not make a command. -/
inductive Stop where
  | usage
  | help
  | version
  deriving DecidableEq, Repr

/-- What was read: options with their values, and operands. -/
structure Found where
  /-- Names of options with their values, in order; a flag has an empty value. -/
  options : List (String × String) := []
  operands : List String := []
  deriving DecidableEq, Repr

namespace Found

def has (found : Found) (name : String) : Bool := found.options.any (·.1 == name)

/-- The values of an option, in the order given. -/
def values (found : Found) (name : String) : List String :=
  (found.options.filter (·.1 == name)).map (·.2)

/-- The value of an option that is given at most once. -/
def value? (found : Found) (name : String) : Option String := (found.values name).head?

end Found

/-- Takes an option in. Help and version end the reading, and most options may be given once only.
-/
def Found.add (found : Found) (spec : OptionSpec) (value : String) : Except Stop Found :=
  if spec.name = "help" then .error .help
  else if spec.name = "version" then .error .version
  else if found.has spec.name && !spec.repeatable then .error .usage
  else if (spec.accepts?.map (· value)).getD true then
    .ok { found with options := found.options ++ [(spec.name, value)] }
  else .error .usage

/-- Takes in a word that is no option; an empty one is refused. -/
def Found.addOperand (found : Found) (operand : String) : Except Stop Found :=
  if operand.isEmpty then .error .usage
  else .ok { found with operands := found.operands ++ [operand] }

def Found.addOperands (found : Found) : List String → Except Stop Found
  | [] => .ok found
  | operand :: rest => do (← found.addOperand operand).addOperands rest

def looksLikeOption (word : String) : Bool := Text.startsWith "-" word && word ≠ "-"

/-- Whether the word of an option leaves its value to the next word. -/
inductive Reading where
  | complete (found : Found)
  | needsValue (found : Found) (spec : OptionSpec)

/-- Reads a word that starts with two dashes, given what stands behind them. -/
def readLong (specs : List OptionSpec) (found : Found) (body : List Char) :
    Except Stop Reading :=
  let (name, attached?) :=
    match Text.cutFirst '=' body with
    | some (name, value) => (name, some (String.ofList value))
    | none => (body, none)
  match specs.find? (·.name == String.ofList name) with
  | none => .error .usage
  | some spec =>
    match spec.accepts?, attached? with
    | none, none => (found.add spec "").map .complete
    | none, some _ => .error .usage
    | some _, some value => (found.add spec value).map .complete
    | some _, none => .ok (.needsValue found spec)

/-- Reads the letters of a word behind one dash. -/
def readLetters (specs : List OptionSpec) (found : Found) : List Char → Except Stop Reading
  | [] => .ok (.complete found)
  | letter :: rest =>
    match specs.find? (·.letter? == some letter) with
    | none => .error .usage
    | some spec =>
      match spec.accepts? with
      | none => do readLetters specs (← found.add spec "") rest
      | some _ =>
        match rest with
        | [] => .ok (.needsValue found spec)
        | '=' :: value => (found.add spec (String.ofList value)).map .complete
        | value => (found.add spec (String.ofList value)).map .complete

/-- Reads a word that starts with a dash, as a long option or as a row of letters. -/
def readOption (specs : List OptionSpec) (found : Found) (word : String) : Except Stop Reading :=
  match word.toList with
  | '-' :: '-' :: body => readLong specs found body
  | '-' :: letters => readLetters specs found letters
  | _ => .error .usage

/-- Reads words. With `nested` the first operand and all behind it are left, because they are read
with the options of a command. -/
def read (specs : List OptionSpec) (nested : Bool) (found : Found) :
    List String → Except Stop (Found × List String)
  | [] => .ok (found, [])
  | word :: rest =>
    if word = "--" then
      if nested then .error .usage else (found.addOperands rest).map fun found => (found, [])
    else if looksLikeOption word then
      match readOption specs found word, rest with
      | .error stop, _ => .error stop
      | .ok (.complete found), rest => read specs nested found rest
      | .ok (.needsValue _ _), [] => .error .usage
      | .ok (.needsValue found spec), value :: rest =>
        if looksLikeOption value then .error .usage
        else do read specs nested (← found.add spec value) rest
    else if nested then .ok (found, word :: rest)
    else do read specs nested (← found.addOperand word) rest

end RamOverlay.Arguments
