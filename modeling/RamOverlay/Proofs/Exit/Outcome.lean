import RamOverlay.Proofs.Exit.Machine
import RamOverlay.Text.Split
import RamOverlay.Thumb2.Instruction

/-!
# Where a processor goes from a branch

A branch as the manual of the processor reads it: a stem, a condition suffix, perhaps the mark of a
width, and an operand that is a label or a register. The tables by which instructions are classified
have no part in this reading, so that what is emitted for a branch can be compared with it.

* **`Assembler.outcome?`**: where control goes from an instruction that branches.
* **`Source.uncommented_eq_self`**: a text without block comments is read as it stands.
* **`Assembler.place`**: the address of that place.
-/

namespace RamOverlay

/-! ## Operands -/

namespace Source

/-- A text without its block comments, each of which stands for a blank; `inside` of such a comment,
its rest is skipped. -/
def uncommentedFrom (inside : Bool) (cs : List Char) : List Char :=
  match inside, cs with
  | false, '/' :: '*' :: cs => ' ' :: uncommentedFrom true cs
  | false, c :: cs => c :: uncommentedFrom false cs
  | true, '*' :: '/' :: cs => uncommentedFrom false cs
  | true, _ :: cs => uncommentedFrom true cs
  | _, [] => []

/-- A text without its comments. -/
def uncommented (s : String) : String := String.ofList (uncommentedFrom false s.toList)

/-- A text in which no block comment begins. -/
def Uncommented (s : String) : Prop := ¬ ['/', '*'] <:+: s.toList

instance (s : String) : Decidable (Uncommented s) :=
  inferInstanceAs (Decidable (¬ ['/', '*'] <:+: s.toList))

/-- A text in which no comment begins is left as it is. -/
theorem uncommentedFrom_eq_self {cs : List Char} (h : ¬ ['/', '*'] <:+: cs) :
    uncommentedFrom false cs = cs := by
  induction cs with
  | nil => rfl
  | cons c cs ih =>
    have hrest := ih fun hpart => h (hpart.trans (List.suffix_cons c cs).isInfix)
    unfold uncommentedFrom
    split
    next heq =>
      -- a comment would begin with these two characters
      exact absurd (heq ▸ (List.prefix_append ['/', '*'] _).isInfix) h
    next heq =>
      obtain ⟨rfl, rfl⟩ := List.cons.inj heq
      rw [hrest]
    next h _ => cases h
    next h _ => cases h
    next heq => cases heq

theorem uncommented_eq_self {s : String} (h : Uncommented s) : uncommented s = s := by
  rw [uncommented, uncommentedFrom_eq_self h, String.ofList_toList]

end Source

namespace Thumb2

/-! ## Mnemonics -/

/-- The test of a condition suffix. Without one, or with `al`, a branch is always taken. -/
def suffixTest? : String → Option (Flags → Bool)
  | "" | "al" => some fun _ => true
  | "eq" => some fun flags => flags.zero
  | "ne" => some fun flags => !flags.zero
  | "cs" | "hs" => some fun flags => flags.carry
  | "cc" | "lo" => some fun flags => !flags.carry
  | "mi" => some fun flags => flags.negative
  | "pl" => some fun flags => !flags.negative
  | "vs" => some fun flags => flags.overflow
  | "vc" => some fun flags => !flags.overflow
  | "hi" => some fun flags => flags.carry && !flags.zero
  | "ls" => some fun flags => !flags.carry || flags.zero
  | "ge" => some fun flags => flags.negative == flags.overflow
  | "lt" => some fun flags => flags.negative != flags.overflow
  | "gt" => some fun flags => !flags.zero && flags.negative == flags.overflow
  | "le" => some fun flags => flags.zero || flags.negative != flags.overflow
  | _ => none

/-- What the operand of a branch may be. -/
inductive Operand where
  | label
  | register
  | either
  deriving DecidableEq, Repr

/-- The stems of the branches that may carry a condition, with their operands. -/
def branchStems : List (String × Operand) :=
  [("b", .label), ("bl", .label), ("bx", .register), ("blx", .either)]

/-- A mnemonic without the mark of its width. -/
def withoutWidth (operator : String) : String :=
  match operator.toList.reverse with
  | 'n' :: '.' :: rest | 'w' :: '.' :: rest => String.ofList rest.reverse
  | _ => operator

/-- Reads the mnemonic of a branch that depends on flags, if on anything. No mnemonic can be read in
two ways: `bls` is no `bl`, since `s` is no suffix. -/
def branch? (operator : String) : Option (Operand × (Flags → Bool)) :=
  branchStems.findSome? fun (stem, operand) => do
    let suffix ← stem.toList.isPrefixOf? (withoutWidth operator).toList
    let test ← suffixTest? (String.ofList suffix)
    return (operand, test)

/-- Reads the mnemonic of a branch that depends on a register. -/
def compareTest? (operator : String) : Option (BitVec 32 → Bool) :=
  match withoutWidth operator with
  | "cbz" => some fun value => value == 0
  | "cbnz" => some fun value => value != 0
  | _ => none

/-! ## Outcomes -/

/-- Where control goes from an instruction. -/
inductive Outcome where
  | label (name : String)
  /-- To the address that a register holds. -/
  | address (value : BitVec 32)
  /-- To what stands behind the instruction. -/
  | behind
  deriving DecidableEq, Repr

namespace Assembler

variable (asm : Assembler)

/-- Where a branch goes that is taken. An address in a register has the Thumb bit set; the processor
goes nowhere without it. -/
def taken? (operand : Operand) (name : String) (machine : Machine) : Option Outcome :=
  match operand, asm.register? name with
  | .label, _ | .either, none => some (.label name)
  | .register, none => none
  | .register, some register | .either, some register =>
    let value := machine.registers register
    if value.getLsbD 0 then some (.address (value - 1)) else none

/-- Where control goes from an instruction that branches, calls among them; `none` for every other
one, and where the processor goes nowhere. -/
def outcome? (insn : Instruction) (machine : Machine) : Option Outcome :=
  let operands := Source.uncommented insn.operands
  match compareTest? insn.operator with
  | some test =>
    match Text.piecesOf ',' operands with
    | first :: second :: _ =>
      (asm.register? (Text.strip first)).map fun register =>
        if test (machine.registers register) then .label (Text.strip second) else .behind
    | _ => none
  | none => do
    let (operand, test) ← branch? insn.operator
    if test machine.flags then asm.taken? operand (Text.strip operands) machine
    else return .behind

/-- The address of an outcome, if a label `next` stands behind the instruction. -/
def place (next : String) : Outcome → BitVec 32
  | .label name => asm.addressOf name
  | .address value => value
  | .behind => asm.addressOf next

section Taken

variable {asm} {operand : Operand} {name : String} {register : Fin 16} {machine : Machine}

@[simp] theorem taken?_label : asm.taken? .label name machine = some (.label name) := by
  simp only [taken?]

theorem taken?_either_of_none (h : asm.register? name = none) :
    asm.taken? .either name machine = some (.label name) := by
  simp only [taken?, h]

theorem taken?_register_of_none (h : asm.register? name = none) :
    asm.taken? .register name machine = none := by
  simp only [taken?, h]

/-- A register with an odd address in it is where the tail goes, with the lowest bit taken off. -/
theorem taken?_of_some (hoperand : operand ≠ .label) (h : asm.register? name = some register)
    (hodd : (machine.registers register).getLsbD 0 = true) :
    asm.taken? operand name machine = some (.address (machine.registers register - 1)) := by
  cases operand with
  | label => exact absurd rfl hoperand
  | register | either => simp only [taken?, h, hodd, if_true]

end Taken

@[simp] theorem place_ite (next name : String) (test : Bool) :
    asm.place next (if test then .label name else .behind) =
      asm.addressOf (if test then name else next) := by
  cases test <;> rfl

end Assembler

end Thumb2

end RamOverlay
