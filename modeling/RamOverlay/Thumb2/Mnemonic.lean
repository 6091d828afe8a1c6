import RamOverlay.Text.Split

/-!
# Mnemonics of the ARMv7-M Thumb-2 instruction set

The tables by which instructions are classified: every question about an operator is a look-up in
one of these lists. `stripCondition` gives the base form of a conditional mnemonic.
-/

namespace RamOverlay.Thumb2

/-- Branches without a condition, direct or through a register. -/
def unconditionalBranches : List String := ["b", "bx"]

def conditionalBranches : List String :=
  ["beq", "bne", "bcs", "bcc", "bhs", "blo", "bmi", "bpl", "bvs", "bvc", "bhi", "bls", "bge",
    "blt", "bgt", "ble"]

def compareBranches : List String := ["cbz", "cbnz"]

/-- Beginnings of the loads of several registers, the program counter possibly among them. -/
def multiLoadStems : List String := ["pop", "ldmia"]

/-- Operators that redirect control when their destination is the program counter. -/
def pcWriters : List String := ["mov", "ldr"]

def tableBranches : List String := ["tbb", "tbh"]

def calls : List String := ["bl", "blx"]

def loads : List String := ["ldr", "pop", "ldm", "ldmia"]

def stores : List String := ["str", "push", "stm", "stmia"]

def nops : List String := ["nop"]

def dataWords : List String := [".word"]

/-- Operators that make an address relative to the program counter. -/
def addressGenerators : List String := ["adr"]

/-- Loads that may read a literal relative to the program counter. -/
def literalLoads : List String := ["ldr"]

/-- The condition suffixes that `stripCondition` removes, in the order in which they are tried. -/
def conditionSuffixes : List String :=
  ["gt", "le", "lt", "ne", "ge", "eq", "ls", "hi", "cc", "cs", "mi", "pl"]

def registers : List String :=
  ["r0", "r1", "r2", "r3", "r4", "r5", "r6", "r7", "r8", "r9", "r10", "r11", "r12", "r13", "r14",
    "r15", "sl", "fp", "ip", "sp", "lr", "pc"]

/-- Fewest bytes of a mnemonic that may carry a condition suffix. -/
def minConditionedSize : Nat := 5

/-- The base form of a mnemonic: a condition suffix is removed from mnemonics of at least
`minConditionedSize` bytes, so that base forms such as `bls` stay. -/
def stripCondition (operator : String) : String :=
  if operator.utf8ByteSize < minConditionedSize then operator
  else
    match conditionSuffixes.find? fun suffix => suffix.toList.isSuffixOf operator.toList with
    | some suffix => String.ofList (operator.toList.take (operator.length - suffix.length))
    | none => operator

/-- Whether an operand, blanks around it apart, names a register. -/
def isRegister (operand : String) : Bool := registers.contains (Text.strip operand)

end RamOverlay.Thumb2
