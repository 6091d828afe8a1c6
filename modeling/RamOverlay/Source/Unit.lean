import RamOverlay.Source.Line
import RamOverlay.Thumb2.Instruction
import RamOverlay.Traced

/-!
# Source units

One assembler file: its lines, the labels and instructions on them, and the functions that it
declares. The address of an entry is its place among the entries of the unit. Lines with metadata
are blanked, because moving blocks would make them wrong.
-/

namespace RamOverlay

/-- A source file: its lines as they are kept for the output, and what was read from them. -/
structure SourceUnit where
  name : String
  lines : List String
  instructions : List Instruction
  functions : List String
  deriving Repr

namespace SourceUnit

open Source (Line)

/-- The entry of a line, if it has one. -/
def entry? (line address : Nat) (cs : List Char) : Option Instruction :=
  match Line.classify cs with
  | .label name _ => some { address, line, label? := some (String.ofList name) }
  | .instruction operator operands =>
    some { address, line, operator := String.ofList operator, operands := String.ofList operands }
  | .ignored | .unmatched => none

/-- The entries of the lines from `line` on, the first of them at `address`. -/
def entriesFrom (line address : Nat) : List (List Char) → List Instruction
  | [] => []
  | cs :: rest =>
    match entry? line address cs with
    | some insn => insn :: entriesFrom (line + 1) (address + 1) rest
    | none => entriesFrom (line + 1) address rest

/-- The line as it is written back: nothing if it mentions metadata. -/
def keptLine (cs : List Char) : String :=
  if Source.mentionsMetadata cs then "" else String.ofList cs

/-- The labels that are declared as functions, in the order of the declarations. -/
def declaredFunctions (lines : List (List Char)) : List String :=
  (lines.filter Source.mentionsFunction).filterMap fun cs =>
    (Source.declaredFunction? cs).map String.ofList

/-- What is reported about the lines from `line` on. -/
def eventsFrom (line : Nat) : List (List Char) → List Event
  | [] => []
  | cs :: rest => Source.lineEvents line cs ++ eventsFrom (line + 1) rest

def parse (name text : String) : Traced SourceUnit :=
  let lines := Text.lines text.toList
  { value := {
      name
      lines := lines.map keptLine
      instructions := entriesFrom 0 0 lines
      functions := declaredFunctions lines }
    events := eventsFrom 0 lines }

/-- The labels that the unit calls directly, in source order. -/
def callTargets (unit : SourceUnit) : List String :=
  (unit.instructions.filter (·.isCall)).filterMap (·.destination.label?)

/-- The labels at which routines start: the declared functions, then the called labels. -/
def routineLabels (unit : SourceUnit) : List String := unit.functions ++ unit.callTargets

/-- The first entry with a label. -/
def findLabel? (unit : SourceUnit) (label : String) : Option Instruction :=
  unit.instructions.find? (·.label? == some label)

/-- Where a label is defined; the last definition counts. -/
def addressOf? (unit : SourceUnit) (label : String) : Option Nat :=
  ((unit.instructions.filter (·.definesLabel label)).getLast?).map (·.address)

/-- Gives a delay slot to every instruction on the lines. -/
def markDelaySlots (unit : SourceUnit) (lines : List Nat) : SourceUnit :=
  { unit with
    instructions := unit.instructions.map fun insn =>
      if !insn.isLabel && lines.contains insn.line then insn.withDelaySlot else insn }

end SourceUnit

end RamOverlay
