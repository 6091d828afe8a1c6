import RamOverlay.Size.Cost

/-!
# Basic blocks

A straight run of entries with one entrance, and the places where control goes after it. The *tail*
decides where: it is the last instruction, or the branch before its delay slot.
-/

namespace RamOverlay

/-- The place of a block in its graph. -/
abbrev BlockId := Nat

/-- A basic block: at least one entry, and the successors, the fallthrough first. -/
structure Block where
  first : Instruction
  rest : List Instruction := []
  successors : List BlockId := []
  deriving DecidableEq, Repr

namespace Block

def instructions (block : Block) : List Instruction := block.first :: block.rest

/-- The block with one more entry at the end. -/
def push (block : Block) (insn : Instruction) : Block :=
  { block with rest := block.rest ++ [insn] }

def address (block : Block) : Nat := block.first.address

def line (block : Block) : Nat := block.first.line

def label? (block : Block) : Option String :=
  if block.first.isLabel then block.first.label? else none

def last (block : Block) : Instruction := block.rest.getLastD block.first

/-- The place of the tail in a list of entries. -/
def tailIndexOf : List Instruction → Nat
  | [] | [_] => 0
  | [branch, slot] => if !slot.isBranch && branch.isBranch && branch.delaySlot then 0 else 1
  | _ :: rest => tailIndexOf rest + 1

def tailIndex (block : Block) : Nat := tailIndexOf block.instructions

/-- The instruction that decides where control goes next. -/
def tail (block : Block) : Instruction := block.instructions.getD block.tailIndex block.first

/-- The block with another tail in the same place. -/
def withTail (block : Block) (tail : Instruction) : Block :=
  match block.tailIndex with
  | 0 => { block with first := tail }
  | i + 1 => { block with rest := block.rest.set i tail }

/-- The label may be that of any entry, not only of the first one. -/
def containsLabel (block : Block) (label : String) : Bool :=
  block.instructions.any (·.definesLabel label)

def calls (block : Block) : List Instruction := block.instructions.filter (·.entersRoutine)

def callCount (block : Block) : Nat := block.calls.length

/-- The number of instructions that read or write memory. -/
def memoryAccessCount (block : Block) : Nat :=
  block.instructions.countP fun insn => insn.isLoad || insn.isStore

section Costs

variable {m : Type → Type} [Monad m]

/-- Bytes and cycles of the entries, added to `total`. -/
def costFrom (oracle : SizeOracle m) (total : Cost) :
    List Instruction → ExceptT CostError m Cost
  | [] => pure total
  | insn :: rest => do
    let cost ← insn.cost oracle
    costFrom oracle (total + cost) rest

/-- Bytes and cycles of the block. The first instruction without a cost stops the count. -/
def cost (block : Block) (oracle : SizeOracle m) : ExceptT CostError m Cost :=
  costFrom oracle {} block.instructions

/-- The sizes of the entries in order, added to what came before; the first one without a size ends
it. -/
def sizeFrom (oracle : SizeOracle m) (total : Nat) :
    List Instruction → ExceptT OracleError m Nat
  | [] => pure total
  | insn :: rest => do
    let size ← insn.size oracle
    sizeFrom oracle (wordSum total size) rest

def size (block : Block) (oracle : SizeOracle m) : ExceptT OracleError m Nat :=
  sizeFrom oracle 0 block.instructions

end Costs

/-- The block as it is shown: its address, then an entry a line. -/
def text (block : Block) : String :=
  "@" ++ Text.decimal block.address
    ++ String.join (block.instructions.map fun insn => "\n" ++ insn.text)

end Block

end RamOverlay
