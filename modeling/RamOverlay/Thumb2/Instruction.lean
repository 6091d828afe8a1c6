import RamOverlay.Text.Numeral
import RamOverlay.Thumb2.Mnemonic

/-!
# Instructions

One entry of a source unit, a label or an instruction, and what it does to the flow of control:
whether it branches, whether it can fall through, whether it calls, and where it goes. An
instruction can be reclassified once: a call that is used as a jump is *suppressed*, a branch into
another routine is a *forced* call.
-/

namespace RamOverlay

/-- How an instruction counts as a call. -/
inductive CallClass where
  /-- By its operator. -/
  | natural
  /-- A call instruction that jumps inside its routine. -/
  | suppressed
  /-- A branch that enters another routine. -/
  | forced
  deriving DecidableEq, Repr

/-- Where a branch or a call goes. -/
inductive Destination where
  /-- Nowhere: neither branch nor call. -/
  | notApplicable
  /-- To an address computed while the program runs. -/
  | indirect
  | label (name : String)
  deriving DecidableEq, Repr

def Destination.label? : Destination → Option String
  | .label name => some name
  | .notApplicable | .indirect => none

/-- A label or an instruction of a source unit. -/
structure Instruction where
  address : Nat
  line : Nat
  label? : Option String := none
  /-- The mnemonic; empty for a label. -/
  operator : String := ""
  operands : String := ""
  /-- Whether the next instruction is executed before this branch takes effect. -/
  delaySlot : Bool := false
  callClass : CallClass := .natural
  deriving DecidableEq, Repr

/-- A call that is marked as a jump already, or the other way round. -/
inductive ReclassifyError where
  | alreadyForced (line : Nat) (insn : String)
  | alreadySuppressed (line : Nat) (insn : String)
  deriving DecidableEq, Repr

def ReclassifyError.message : ReclassifyError → String
  | alreadyForced line insn =>
    "line " ++ Text.decimal line ++ ": `" ++ insn
      ++ "` is already marked as a call, cannot mark it as a jump"
  | alreadySuppressed line insn =>
    "line " ++ Text.decimal line ++ ": `" ++ insn
      ++ "` is already marked as a jump, cannot mark it as a call"

namespace Instruction

/-- Whether the entry is a label and not an instruction. -/
def isLabel (insn : Instruction) : Bool := insn.label?.isSome && insn.operator.isEmpty

/-- Whether the entry is a label of this name. -/
def definesLabel (insn : Instruction) (label : String) : Bool :=
  insn.isLabel && insn.label? == some label

def withDelaySlot (insn : Instruction) : Instruction := { insn with delaySlot := true }

/-- The mnemonic without a condition suffix. -/
def strippedOperator (insn : Instruction) : String := Thumb2.stripCondition insn.operator

/-- Whether several registers are loaded and the operands mention the program counter. -/
def loadsPc (insn : Instruction) : Bool :=
  Thumb2.multiLoadStems.any (fun stem => Text.startsWith stem insn.operator)
    && Text.mentions "pc" insn.operands

/-- Whether the first operand is the program counter and is written. -/
def writesPc (insn : Instruction) : Bool :=
  Thumb2.pcWriters.contains insn.operator && Text.startsWith "pc" insn.operands

/-- Whether this branches through a table behind it, as in `tbb [pc, r0]`. -/
def isTableBranch (insn : Instruction) : Bool :=
  Thumb2.tableBranches.contains insn.operator
    && match insn.operands.toList with
      | bracket :: 'p' :: 'c' :: _ => bracket.utf8Size == 1
      | _ => false

def isNaturalCall (insn : Instruction) : Bool := Thumb2.calls.contains insn.operator

/-- Whether a register is compared with zero for the branch. -/
def isCompareBranch (insn : Instruction) : Bool := Thumb2.compareBranches.contains insn.operator

/-- Whether the branch is one of those that never fall through. -/
def neverFallsThrough (insn : Instruction) : Bool :=
  insn.callClass == .suppressed || Thumb2.unconditionalBranches.contains insn.operator
    || insn.loadsPc || insn.writesPc || insn.isTableBranch

/-- Whether control may go on elsewhere than at the next instruction, calls apart. -/
def isBranch (insn : Instruction) : Bool :=
  insn.neverFallsThrough || Thumb2.conditionalBranches.contains insn.operator
    || insn.isCompareBranch

/-- Whether this is a branch that never falls through. -/
def isUnconditional (insn : Instruction) : Bool := insn.isBranch && insn.neverFallsThrough

/-- Whether this is a call that is not used as a jump. -/
def isCall (insn : Instruction) : Bool :=
  insn.isNaturalCall && insn.callClass != .suppressed

/-- Whether this is a branch that enters another routine. -/
def isForcedCall (insn : Instruction) : Bool := insn.callClass == .forced

/-- Whether another routine is entered, by a call or by a branch. -/
def entersRoutine (insn : Instruction) : Bool := insn.isCall || insn.isForcedCall

def isLoad (insn : Instruction) : Bool := Thumb2.loads.contains insn.operator

def isStore (insn : Instruction) : Bool := Thumb2.stores.contains insn.operator

def isNop (insn : Instruction) : Bool := Thumb2.nops.contains insn.operator

def isDataWord (insn : Instruction) : Bool := Thumb2.dataWords.contains insn.operator

/-- Whether an address relative to the program counter is made. -/
def isAddressGenerator (insn : Instruction) : Bool :=
  Thumb2.addressGenerators.contains insn.strippedOperator

/-- The operand behind the first comma, without blanks around it, unless it is empty. -/
def secondOperand? (insn : Instruction) : Option String :=
  match Text.piecesOf ',' insn.operands with
  | _ :: second :: _ => some (Text.strip second) |>.filter (· ≠ "")
  | _ => none

/-- A compare-and-branch has its target behind its register; any other operand that is no register
is a label. -/
def destination (insn : Instruction) : Destination :=
  if !insn.isBranch && !insn.isNaturalCall then .notApplicable
  else if insn.isCompareBranch then
    match insn.secondOperand? with
    | some target => .label target
    | none => .indirect
  else
    let target := Text.strip insn.operands
    if target.isEmpty || insn.loadsPc || insn.writesPc || insn.isTableBranch
        || Thumb2.pcWriters.contains insn.operator || Thumb2.isRegister target then
      .indirect
    else .label target

/-- The entry as it is shown; a suppressed call carries a mark. -/
def text (insn : Instruction) : String :=
  match insn.label?, insn.operator.isEmpty with
  | some label, true => label ++ ":"
  | _, _ =>
    let mark := if insn.callClass = .suppressed then "* " else ""
    if insn.operands.isEmpty then "    " ++ mark ++ insn.operator
    else "    " ++ mark ++ insn.operator ++ " " ++ insn.operands

/-- Marks a call as a jump within its routine. -/
def suppressCall (insn : Instruction) : Except ReclassifyError Instruction :=
  match insn.callClass with
  | .forced => .error (.alreadyForced insn.line insn.text)
  | .natural | .suppressed => .ok { insn with callClass := .suppressed }

/-- Marks a branch as a call, because it enters another routine. -/
def forceCall (insn : Instruction) : Except ReclassifyError Instruction :=
  match insn.callClass with
  | .suppressed => .error (.alreadySuppressed insn.line insn.text)
  | .natural | .forced => .ok { insn with callClass := .forced }

end Instruction

end RamOverlay
