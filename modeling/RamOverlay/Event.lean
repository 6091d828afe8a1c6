import RamOverlay.Text.Numeral
import RamOverlay.Text.Quoted

/-!
# Reported events

What the analyses report about a program that they accept all the same. An event names its cause
and the place of it; `level`, `message` and `fields` are the form in which it is reported.
-/

namespace RamOverlay

/-- How much an event is worth telling. -/
inductive Level where
  | info
  | warning
  deriving DecidableEq, Repr

/-- An event, by its cause. Lines and addresses count from zero. -/
inductive Event where
  /-- A label is followed by text on its line. -/
  | textAfterLabel (line : Nat) (text : String)
  /-- A line is neither label, directive, comment nor instruction. -/
  | unmatchedLine (line : Nat) (text : String)
  /-- A line mentions `%function` and is no function declaration. -/
  | malformedFunction (line : Nat) (text : String)
  /-- A block would start behind the last instruction. -/
  | startOutsideUnit (unit : String) (address : Nat)
  /-- A call names a label that its unit does not define. -/
  | callNotLocatable (unit : String) (line : Nat) (label : String)
  | branchIntoRoutine (unit : String) (line : Nat) (insn label : String)
  /-- A branch names a label that starts no block. -/
  | unknownLink (unit : String) (line : Nat) (label : String)
  /-- A call enters the routine that it stands in. -/
  | localCall (unit : String) (line : Nat) (label : String)
  /-- Every block of a routine has a predecessor and no routine label. -/
  | noStartingBlock (unit : String) (line : Nat)
  /-- A loop has a second entry. -/
  | irreducibleFlow (unit : String) (line : Nat)
  /-- The header chain of a block could not be merged in as many steps as there are blocks. -/
  | endlessHeaderMerge (unit : String) (line : Nat)
  /-- The header chain of a block comes back to itself. -/
  | cyclicHeaderChain (unit : String) (line : Nat)
  /-- Called labels that start no block of the program. -/
  | unknownCallTargets (labels : List String)
  | noRootRoutine
  /-- A chain of calls is longer than is followed. -/
  | callDepthLimit (routine : String) (depth : Nat)
  /-- A profile line names a unit that is not loaded. -/
  | profileUnknownUnit (unit : String)
  /-- A profile line names a line at which no block starts. -/
  | profileUnknownLine (unit : String) (line : Nat)
  | forcedUnmatched (location : String)
  | forcedPlaced (blocks : Nat)
  | decisionUnknownBlock (block : String)
  | decisionApplied (cost cycles : Int) (blocks bytes : Nat)
  /-- A block that needs a long exit cannot get one. -/
  | uninstrumentableBlock (error : String)
  /-- A conditional branch into another routine stays in RAM as it is. -/
  | conditionalTailCall (unit : String) (line : Nat)
  | unitTransformed (unit : String) (blocks inRam instrumented : Nat)
  | graphsBuilt (units routines : Nat)
  deriving DecidableEq, Repr

namespace Event

/-- What happens in the course of things is information; what may be a mistake in the source is a
warning. -/
def level : Event → Level
  | callNotLocatable .. | unknownCallTargets .. | callDepthLimit .. | forcedPlaced ..
  | decisionApplied .. | unitTransformed .. | graphsBuilt .. => .info
  | _ => .warning

def message : Event → String
  | textAfterLabel .. => "text after label ignored"
  | unmatchedLine .. => "unmatched assembler line"
  | malformedFunction .. => "malformed %function directive"
  | startOutsideUnit .. => "block start is not a valid instruction"
  | callNotLocatable .. => "call destination is not locatable (resolved at link time?)"
  | branchIntoRoutine .. => "branch jumps to a routine, treating it as a call"
  | unknownLink .. => "link to unknown block"
  | localCall .. =>
    "call into its own routine treated as a jump (recursion is indistinguishable)"
  | noStartingBlock .. => "cannot find starting block"
  | irreducibleFlow .. => "irreducible control flow, loop nesting is approximate"
  | endlessHeaderMerge .. => "loop header chain does not terminate"
  | cyclicHeaderChain .. => "cyclic loop header chain"
  | unknownCallTargets .. => "call targets not found in any routine"
  | noRootRoutine => "every routine is called, no root to estimate iterations from"
  | callDepthLimit .. => "call depth limit reached, iteration estimate stops here"
  | profileUnknownUnit .. => "profile names an unknown source unit"
  | profileUnknownLine .. => "profile names a line that starts no block"
  | forcedUnmatched .. => "forced block does not start any basic block"
  | forcedPlaced .. => "placed forced blocks in RAM"
  | decisionUnknownBlock .. => "placement decision names an unknown block"
  | decisionApplied .. => "applied placement decision"
  | uninstrumentableBlock .. => "uninstrumentable block"
  | conditionalTailCall .. => "conditional tail call left relative in RAM"
  | unitTransformed .. => "transformed unit"
  | graphsBuilt .. => "built control flow graphs"

/-- The data of an event, each with its name. -/
def fields : Event → List (String × String)
  | textAfterLabel line text | unmatchedLine line text | malformedFunction line text =>
    [("line", Text.decimal line), ("text", text)]
  | startOutsideUnit unit address => [("unit", unit), ("address", Text.decimal address)]
  | callNotLocatable unit line label | unknownLink unit line label | localCall unit line label =>
    [("unit", unit), ("line", Text.decimal line), ("dest", label)]
  | branchIntoRoutine unit line insn label =>
    [("unit", unit), ("line", Text.decimal line), ("insn", insn), ("dest", label)]
  | noStartingBlock unit line | irreducibleFlow unit line | endlessHeaderMerge unit line
  | cyclicHeaderChain unit line | profileUnknownLine unit line | conditionalTailCall unit line =>
    [("unit", unit), ("line", Text.decimal line)]
  | unknownCallTargets labels => [("labels", Text.quotedList labels)]
  | noRootRoutine => []
  | callDepthLimit routine depth => [("routine", routine), ("depth", Text.decimal depth)]
  | profileUnknownUnit unit => [("unit", unit)]
  | forcedUnmatched location => [("block", location)]
  | forcedPlaced blocks => [("blocks", Text.decimal blocks)]
  | decisionUnknownBlock block => [("block", block)]
  | decisionApplied cost cycles blocks bytes =>
    [("cost", Text.decimalInt cost), ("cycles", Text.decimalInt cycles),
      ("blocks", Text.decimal blocks), ("bytes", Text.decimal bytes)]
  | uninstrumentableBlock error => [("err", error)]
  | unitTransformed unit blocks inRam instrumented =>
    [("unit", unit), ("blocks", Text.decimal blocks), ("in_ram", Text.decimal inRam),
      ("instrumented", Text.decimal instrumented)]
  | graphsBuilt units routines =>
    [("units", Text.decimal units), ("routines", Text.decimal routines)]

end Event

end RamOverlay
