import Mathlib.Logic.Function.Basic
import RamOverlay.Relocation.Exit
import RamOverlay.Source.Line

/-!
# A machine that runs exits

What the lines of a long exit do, as an assembler reads them and an ARMv7-M processor runs them:
comparisons with a constant, instructions under a condition, loads of the address of a label, and
jumps. A jump to an even address leaves the Thumb state, which such a processor cannot do.

* **`Condition.holds_inverse`**: a condition or its inverse holds, and not both.
* **`Statement.read?`**: what a line of assembler text says.
* **`Assembler.run`**: the lines from some place on, up to a jump; **`Assembler.Reaches`**: the jump
  goes to an address, and one register at most is changed before.
-/

namespace RamOverlay.Thumb2

/-- The condition flags. -/
structure Flags where
  negative : Bool
  zero : Bool
  carry : Bool
  overflow : Bool
  deriving DecidableEq, Repr

namespace Condition

/-- Whether a condition holds. -/
def holds (flags : Flags) : Condition → Bool
  | eq => flags.zero
  | ne => !flags.zero
  | cs => flags.carry
  | cc => !flags.carry
  | mi => flags.negative
  | pl => !flags.negative
  | hi => flags.carry && !flags.zero
  | ls => !flags.carry || flags.zero
  | ge => flags.negative == flags.overflow
  | lt => flags.negative != flags.overflow
  | gt => !flags.zero && flags.negative == flags.overflow
  | le => flags.zero || flags.negative != flags.overflow

/-- The inverse condition holds exactly where the condition does not. -/
theorem holds_inverse (condition : Condition) (flags : Flags) :
    condition.inverse.holds flags = !condition.holds flags := by
  obtain ⟨n, z, c, v⟩ := flags
  revert n z c v
  cases condition <;> decide

end Condition

/-- The core registers, the program counter last, and the flags. -/
structure Machine where
  registers : Fin 16 → BitVec 32
  flags : Flags

namespace Machine

/-- The register that holds the place of the program. -/
def programCounter : Fin 16 := 15

/-- The machine with another value in a register. -/
def set (m : Machine) (register : Fin 16) (value : BitVec 32) : Machine :=
  { m with registers := Function.update m.registers register value }

/-- Compares a register with a constant: the flags are those of their difference. -/
def compare (m : Machine) (register : Fin 16) (value : BitVec 32) : Machine :=
  let old := m.registers register
  let difference := old - value
  { m with flags := {
      negative := difference.msb
      zero := difference == 0
      carry := value.ule old
      overflow := old.msb != value.msb && difference.msb != old.msb } }

@[simp] theorem flags_set (m : Machine) (register : Fin 16) (value : BitVec 32) :
    (m.set register value).flags = m.flags := rfl

@[simp] theorem registers_set_self (m : Machine) (register : Fin 16) (value : BitVec 32) :
    (m.set register value).registers register = value :=
  Function.update_self ..

theorem registers_set_of_ne (m : Machine) {register other : Fin 16} (value : BitVec 32)
    (h : other ≠ register) : (m.set register value).registers other = m.registers other :=
  Function.update_of_ne h ..

@[simp] theorem registers_compare (m : Machine) (register : Fin 16) (value : BitVec 32) :
    (m.compare register value).registers = m.registers := rfl

@[simp] theorem zero_compare (m : Machine) (register : Fin 16) :
    (m.compare register 0).flags.zero = (m.registers register == 0) := by
  simp [compare]

end Machine

/-! ## Statements -/

/-- What a line of an exit says. -/
inductive Statement where
  /-- A blank line, a comment, a directive or a label. -/
  | nothing
  | compare (register : Fin 16) (value : BitVec 32)
  /-- The next instruction is run if the condition holds, the one after it if not. -/
  | ifThenElse (condition : Condition)
  /-- Loads an address, the one of a label and some bytes more. -/
  | load (condition? : Option Condition) (register : Fin 16) (label : String) (offset : Nat)
  /-- Jumps to the address in a register. -/
  | exchange (register : Fin 16)
  deriving DecidableEq, Repr

/-- How an assembler reads the names in a text. Those of registers are words. -/
structure Assembler where
  register? : String → Option (Fin 16)
  addressOf : String → BitVec 32
  programCounter : register? "pc" = some Machine.programCounter
  word : ∀ name register, register? name = some register →
    name ≠ "" ∧ ∀ c ∈ name.toList, c.isAlphanum = true

namespace Assembler

variable (asm : Assembler)

/-- A constant operand such as `#0`. -/
def constant? (cs : List Char) : Option Nat :=
  match cs with
  | '#' :: digits => Text.digits? digits
  | _ => none

/-- The label and the offset of an operand such as `=label` or `=label+1`. -/
def literal? (cs : List Char) : Option (String × Nat) :=
  match cs with
  | '=' :: expression =>
    match expression.reverse with
    | '1' :: '+' :: label => some (String.ofList label.reverse, 1)
    | _ => some (String.ofList expression, 0)
  | _ => none

/-- The condition of a load, read off its mnemonic. -/
def loadCondition? (operator : String) : Option (Option Condition) :=
  match operator.toList with
  | ['l', 'd', 'r'] => some none
  | 'l' :: 'd' :: 'r' :: suffix => (Condition.ofSuffix? (String.ofList suffix)).map some
  | _ => none

/-- Reads an instruction with one operand. -/
def unary? (operator operand : String) : Option Statement :=
  if operator = "ite" then (Condition.ofSuffix? operand).map .ifThenElse
  else if operator = "bx" then (asm.register? operand).map .exchange
  else none

/-- Reads an instruction with two operands, the first of them a register. -/
def binary? (operator first : String) (second : List Char) : Option Statement := do
  let register ← asm.register? first
  if operator = "cmp" then
    let value ← constant? second
    return .compare register (BitVec.ofNat 32 value)
  else
    let condition? ← loadCondition? operator
    let (label, offset) ← literal? second
    return .load condition? register label offset

/-- Reads a line. -/
def read? (line : String) : Option Statement :=
  match Source.Line.classify line.toList with
  | .label .. | .ignored => some .nothing
  | .unmatched => if (Text.trim line.toList).head? = some '#' then some .nothing else none
  | .instruction operator operands =>
    match Text.cutFirst ',' operands with
    | some (first, second) =>
      asm.binary? (String.ofList operator) (Text.strip (String.ofList first)) (Text.trim second)
    | none => asm.unary? (String.ofList operator) (String.ofList operands)

/-- The names of the registers, in their order: a number, a place in a call, and the names of old.
An assembler takes each of them in capitals too. -/
def registerNames : List (List String) :=
  [["r0", "R0", "a1", "A1"], ["r1", "R1", "a2", "A2"], ["r2", "R2", "a3", "A3"],
    ["r3", "R3", "a4", "A4"], ["r4", "R4", "v1", "V1"], ["r5", "R5", "v2", "V2"],
    ["r6", "R6", "v3", "V3"], ["r7", "R7", "v4", "V4", "wr", "WR"], ["r8", "R8", "v5", "V5"],
    ["r9", "R9", "v6", "V6", "sb", "SB"], ["r10", "R10", "v7", "V7", "sl", "SL"],
    ["r11", "R11", "v8", "V8", "fp", "FP"], ["r12", "R12", "ip", "IP"],
    ["r13", "R13", "sp", "SP"], ["r14", "R14", "lr", "LR"], ["r15", "R15", "pc", "PC"]]

/-- An assembler that knows all names of the registers. -/
def ofAddresses (addressOf : String → BitVec 32) : Assembler where
  register? name := (registerNames.findIdx? fun names => names.contains name).map (Fin.ofNat 16)
  addressOf
  programCounter := by decide
  word := by
    intro name register h
    obtain ⟨i, hi, -⟩ := Option.map_eq_some_iff.1 h
    obtain ⟨hlt, hcontains, -⟩ := List.findIdx?_eq_some_iff_getElem.1 hi
    have hwords : ∀ names ∈ registerNames, ∀ name ∈ names,
        name ≠ "" ∧ name.toList.all Char.isAlphanum = true := by decide
    have hword := hwords _ (List.getElem_mem hlt) name (List.contains_iff_mem.1 hcontains)
    exact ⟨hword.1, List.all_eq_true.1 hword.2⟩

/-! ## Runs -/

/-- A machine, and the conditions of the next instructions if those stand under conditions. -/
structure Running where
  machine : Machine
  governed : List Condition := []

/-- What one statement does: the next one follows, or the program goes on somewhere else. -/
inductive Step where
  | next (state : Running)
  | jump (machine : Machine) (address : BitVec 32)

/-- Jumps to an address with the Thumb bit set. -/
def branchTo (machine : Machine) (address : BitVec 32) : Option Step :=
  if address.getLsbD 0 then some (.jump machine (address - 1)) else none

/-- Writes a register; what is written to the program counter is jumped to. Under conditions only
the last instruction may do that. -/
def write (state : Running) (register : Fin 16) (value : BitVec 32) : Option Step :=
  if register = Machine.programCounter then
    if state.governed = [] then branchTo state.machine value else none
  else some (.next { state with machine := state.machine.set register value })

/-- Runs a statement; `none` if a processor does not run it. -/
def execute (state : Running) : Statement → Option Step
  | .nothing => some (.next state)
  | .compare register value =>
    if state.governed = [] then
      some (.next { state with machine := state.machine.compare register value })
    else none
  | .ifThenElse condition =>
    if state.governed = [] then
      some (.next { state with governed := [condition, condition.inverse] })
    else none
  | .load condition? register label offset =>
    let value := asm.addressOf label + BitVec.ofNat 32 offset
    match condition?, state.governed with
    | none, [] => write state register value
    | some condition, expected :: governed =>
      if condition = expected then
        let state := { state with governed }
        if condition.holds state.machine.flags then write state register value
        else some (.next state)
      else none
    | _, _ => none
  | .exchange register =>
    if state.governed = [] then branchTo state.machine (state.machine.registers register) else none

/-- Runs lines up to the first jump, and tells where it goes. -/
def run (state : Running) : List String → Option (Machine × BitVec 32)
  | [] => none
  | line :: rest =>
    match (asm.read? line).bind (asm.execute state) with
    | some (.next state) => run state rest
    | some (.jump machine address) => some (machine, address)
    | none => none

/-- The lines are run up to a jump to an address, of the registers only `r` being changed. No line
before them has put the first one under a condition. -/
def Reaches (r : Fin 16) (machine : Machine) (lines : List String) (address : BitVec 32) : Prop :=
  ∃ machine', asm.run { machine } lines = some (machine', address) ∧
    ∀ other, other ≠ r → machine'.registers other = machine.registers other

variable {asm} in
/-- Lines do not reach two addresses, so reaching one says all about where they go. -/
theorem Reaches.unique {r r' : Fin 16} {machine : Machine} {lines : List String}
    {address address' : BitVec 32} (h : asm.Reaches r machine lines address)
    (h' : asm.Reaches r' machine lines address') : address = address' := by
  obtain ⟨_, hrun, -⟩ := h
  obtain ⟨_, hrun', -⟩ := h'
  exact congrArg Prod.snd (Option.some.inj (hrun.symm.trans hrun'))

/-- A line whose statement does not jump is followed by the rest. -/
theorem run_next {state state' : Running} {line : String} {statement : Statement}
    {rest : List String} (hread : asm.read? line = some statement)
    (hstep : asm.execute state statement = some (.next state')) :
    asm.run state (line :: rest) = asm.run state' rest := by
  rw [run, hread, Option.bind_some, hstep]

/-- A line whose statement jumps ends the run. -/
theorem run_jump {state : Running} {line : String} {statement : Statement} {rest : List String}
    {machine : Machine} {address : BitVec 32} (hread : asm.read? line = some statement)
    (hstep : asm.execute state statement = some (.jump machine address)) :
    asm.run state (line :: rest) = some (machine, address) := by
  rw [run, hread, Option.bind_some, hstep]

end Assembler

end RamOverlay.Thumb2
