/-!
# Cycle classes

How many cycles an instruction takes on the pipeline, by its operator and by the width of its
encoding: each width has its classes, tried in order.
-/

namespace RamOverlay.Thumb2

/-- What determines the cycles of an instruction. -/
inductive CycleClass where
  /-- One cycle. -/
  | single
  /-- One cycle, and the pipeline is refilled. -/
  | flush
  /-- Two cycles: memory accesses and addresses. -/
  | double
  /-- Three cycles: long products. -/
  | triple
  /-- One cycle and one for each register. -/
  | multi
  /-- Two cycles and one for each register. -/
  | stack
  /-- A quotient. -/
  | divide
  deriving DecidableEq, Repr

/-- The two widths of an encoding. -/
inductive Width where
  | narrow
  | wide
  deriving DecidableEq, Repr

/-- Cycles for refilling the pipeline after a write to the program counter. -/
def flushPenalty : Nat := 2

def divideCycles : Nat := 6

/-- The largest count of cycles; larger ones are cut to it. -/
def maxCycles : Nat := 0xffffffff

def Width.ofSize? : Nat → Option Width
  | 2 => some .narrow
  | 4 => some .wide
  | _ => none

/-- The classes of a width with their operators, in the order in which they are tried. -/
def Width.classes : Width → List (CycleClass × List String)
  | .narrow =>
    [(.single,
      ["adc", "add", "and", "asr", "bic", "cmn", "cmp", "cpy", "eor", "lsl", "lsr", "mov", "mul",
        "mvn", "neg", "orr", "ror", "sbc", "sub", "tst", "rev", "revh", "revsh", "sxtb", "sxth",
        "uxtb", "uxth", "nop", "adds", "movs", "subs", "lsls", "asrs", "orrs", "lsrs", "eors",
        "mvns", "muls", "ands", "negs", "it", "ite", "itt", "ittt", "itttt"]),
      (.flush,
      ["b", "bl", "bx", "blx", "beq", "bne", "ble", "bgt", "bge", "blt", "bcc", "bcs", "bmi",
        "bpl", "bvs", "bhi", "bls", "cbz", "cbnz"]),
      (.double,
      ["ldr", "ldrb", "ldrh", "ldrsb", "ldrsh", "str", "strb", "strh", "adr"]),
      (.multi, ["ldmia", "stmia"]),
      (.stack, ["push", "pop"])]
  | .wide =>
    [(.single,
      ["adcs", "adds", "cmn", "rsbs", "sbcs", "subs", "cmp", "ands", "tst", "bics", "eors", "teq",
        "orrs", "movs", "orns", "mvns", "adc", "add", "rsb", "sbc", "sub", "and", "bic", "eor",
        "orr", "mov", "orn", "mvn", "nop", "negs", "movw", "movt", "addw", "subw", "bfi", "bfc",
        "ubfx", "sbfx", "asrs", "lsls", "lsrs", "rors", "rrxs", "asr", "lsl", "lsr", "ror", "rrx",
        "rev", "revh", "revsh", "rbit", "clz", "sxtb", "sxth", "uxtb", "uxth", "mul", "mla",
        "mls"]),
      (.flush, ["bl", "b", "beq", "bne"]),
      (.double,
      ["ldr", "ldrb", "ldrsb", "ldrh", "ldrsh", "str", "strb", "strh", "ldrd", "strd", "adr"]),
      (.triple, ["umull", "smull", "umlal", "smlal"]),
      (.multi, ["ldm", "stm", "stmia", "ldmia"]),
      (.stack, ["push", "pop"]),
      (.divide, ["sdiv", "udiv"])]

def Width.classOf? (width : Width) (operator : String) : Option CycleClass :=
  (width.classes.find? fun (_, operators) => operators.contains operator).map (·.1)

/-- The cycles of a class for an instruction that names this many registers, the refilling of the
pipeline apart. -/
def CycleClass.base (registers : Nat) : CycleClass → Nat
  | .single | .flush => 1
  | .double => 2
  | .triple => 3
  | .multi => min (registers + 1) maxCycles
  | .stack => min (registers + 2) maxCycles
  | .divide => divideCycles

end RamOverlay.Thumb2
