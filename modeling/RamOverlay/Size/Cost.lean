import RamOverlay.Size.Oracle
import RamOverlay.Thumb2.Cycles
import RamOverlay.Total

/-!
# Costs

The bytes and cycles of single instructions. The cycles follow from the size by the cycle classes
of its width; an operator without a class there is an error. Bytes, cycles and registers are counted
in words of 32 bits.
-/

namespace RamOverlay

/-- The sum of two words; what does not fit a word is lost. -/
def wordSum (a b : Nat) : Nat := (a + b) % Text.wordLimit

theorem wordSum_of_lt {a b : Nat} (h : a + b < Text.wordLimit) : wordSum a b = a + b :=
  Nat.mod_eq_of_lt h

/-- What an instruction, or a stretch of code, takes: bytes in memory and cycles in time. -/
structure Cost where
  size : Nat := 0
  cycles : Nat := 0
  deriving DecidableEq, Repr

instance : Add Cost := ⟨fun a b => ⟨wordSum a.size b.size, wordSum a.cycles b.cycles⟩⟩

/-- Why an instruction has no cost. -/
inductive CostError where
  /-- No cycle class of the width holds the operator. -/
  | unknownCycles (operator : String) (size line : Nat)
  | oracle (error : OracleError)
  deriving DecidableEq, Repr

def CostError.message : CostError → String
  | unknownCycles operator size line =>
    "unknown cycle count for `" ++ operator ++ "` (" ++ Text.decimal size
      ++ "-byte encoding) at line " ++ Text.decimal line
  | oracle error => error.message

/-- The number of a register written `r` and a numeral. -/
def registerNumber? (cs : List Char) : Option Nat :=
  match Text.trim cs with
  | 'r' :: digits => Text.natural? Text.wordLimit digits
  | _ => none

/-- How many registers one entry of a register list names: an ascending range between two numbered
registers counts each of them, anything else counts once. -/
def registerEntryCount (entry : List Char) : Nat :=
  match Text.cutFirst '-' entry with
  | none => 1
  | some (low, high) =>
    match registerNumber? low, registerNumber? high with
    | some first, some last => if first ≤ last then wordSum (last - first) 1 else 1
    | _, _ => 1

/-- How many registers the list between braces names; none where there is no brace. -/
def registerCount (operands : String) : Nat :=
  match Text.cutFirst '\x7b' operands.toList with
  | none => 0
  | some (_, list) =>
    let entries := (Text.pieces ',' (list.takeWhile (· ≠ '\x7d'))).map Text.trim
    totalOf registerEntryCount (entries.filter (· ≠ [])) % Text.wordLimit

namespace Instruction

/-- The cycles of an instruction whose encoding takes `size` bytes. Data and instructions without
bytes take none; a write to the program counter refills the pipeline. -/
def cycles (insn : Instruction) (size : Nat) : Except CostError Nat :=
  if size = 0 ∨ insn.isDataWord then .ok 0
  else
    let unknown := CostError.unknownCycles insn.operator size insn.line
    match Thumb2.Width.ofSize? size with
    | none => .error unknown
    | some width =>
      match width.classOf? insn.strippedOperator with
      | none => .error unknown
      | some class_ =>
        let base := class_.base (registerCount insn.operands)
        if class_ = .flush ∨ insn.isBranch then
          .ok (min (base + Thumb2.flushPenalty) Thumb2.maxCycles)
        else .ok base

/-- The cost of an instruction. The cycles depend on the size that the oracle tells. -/
def cost {m : Type → Type} [Monad m] (insn : Instruction) (oracle : SizeOracle m) :
    ExceptT CostError m Cost := do
  let size ← (insn.size oracle).adapt CostError.oracle
  match insn.cycles size with
  | .ok cycles => pure ⟨size, cycles⟩
  | .error e => throw e

end Instruction

end RamOverlay
