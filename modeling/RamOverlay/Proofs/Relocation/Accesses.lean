import RamOverlay.Proofs.Exit.Reading

/-!
# Instructions that refer to a symbol

A load or an `adr` writes a register with what its other operand refers to. A symbol that is found
relative to the program counter has to be near; a literal holds the value of a symbol that may be
anywhere.

* **`Assembler.access?`**: what a mnemonic and operands say; **`accessOn?`**: what a line says.
* **`Assembler.perform`**: the instructions in their order, up to a write of the program counter.
* **`accessOn?_literal`**, **`accessOn?_pointer`**: how the lines that relocation puts in are read.
* **`perform_literal_pointer`**: a literal and the word that it leads to, in place of a load.
-/

namespace RamOverlay.Thumb2

/-- What an instruction writes to its register. -/
inductive Referent where
  /-- The value of a symbol, kept in a literal. -/
  | literal (symbol : String)
  /-- The word at the address in a register. -/
  | pointer (base : Fin 16)
  /-- The word at a symbol that is found relative to the program counter. -/
  | nearWord (symbol : String)
  /-- The address of a symbol, made relative to the program counter. -/
  | nearAddress (symbol : String)
  deriving DecidableEq, Repr

namespace Referent

/-- The symbol, with an offset if it has one. -/
def symbol? : Referent → Option String
  | literal symbol | nearWord symbol | nearAddress symbol => some symbol
  | pointer _ => none

/-- Whether what is referred to has to be near. -/
def isNear : Referent → Bool
  | nearWord _ | nearAddress _ => true
  | literal _ | pointer _ => false

end Referent

/-- What an instruction reads, from where, and on which condition. -/
structure Access where
  /-- The instruction is run if the condition holds. -/
  condition? : Option Condition
  register : Fin 16
  referent : Referent
  deriving DecidableEq, Repr

/-! ## Reading -/

/-- The condition of a mnemonic that is the stem, perhaps with a condition suffix. -/
def conditionBehind? (stem operator : List Char) : Option (Option Condition) :=
  if operator = stem then some none
  else if stem.isPrefixOf operator then
    (Condition.ofSuffix? (String.ofList (operator.drop stem.length))).map some
  else none

namespace Assembler

variable (asm : Assembler)

/-- The operand of a load: a literal such as `=symbol`, a word such as `[r1]`, or a symbol. -/
def loaded? (operand : String) : Option Referent :=
  match operand.toList with
  | '=' :: symbol => some (.literal (String.ofList symbol))
  | '[' :: base =>
    match base.reverse with
    | ']' :: name => (asm.register? (String.ofList name.reverse)).map .pointer
    | _ => none
  | _ => some (.nearWord operand)

/-- The condition of an instruction, and what its second operand refers to. -/
def referent? (operator : List Char) (operand : String) : Option (Option Condition × Referent) :=
  match conditionBehind? ['a', 'd', 'r'] operator with
  | some condition? => some (condition?, .nearAddress operand)
  | none =>
    match conditionBehind? ['l', 'd', 'r'] operator with
    | some condition? => (asm.loaded? operand).map fun referent => (condition?, referent)
    | none => none

/-- Reads a mnemonic and operands. -/
def access? (operator operands : List Char) : Option Access :=
  match Text.cutFirst ',' operands with
  | none => none
  | some (target, operand) =>
    (asm.register? (Text.strip (String.ofList target))).bind fun register =>
      (asm.referent? operator (Text.strip (String.ofList operand))).map
        fun (condition?, referent) => { condition?, register, referent }

/-- Reads a line. -/
def accessOn? (line : String) : Option Access :=
  match Source.Line.classify line.toList with
  | .instruction operator operands => asm.access? operator operands
  | _ => none

end Assembler

/-! ## Lines that relocation puts in -/

/-- A load of the value of a symbol. -/
def literalLine (name symbol : String) : String := "    ldr " ++ name ++ ", =" ++ symbol

/-- A load of the word at the address in the same register. -/
def pointerLine (name : String) : String := "    ldr " ++ name ++ ", [" ++ name ++ "]"

namespace Assembler

open Source (IsMnemonic Plain)

variable {asm : Assembler} {name symbol : String} {register : Fin 16}

theorem referent?_load (operand : String) : asm.referent? "ldr".toList operand =
    (asm.loaded? operand).map fun referent => (none, referent) := rfl

/-- A line with a register and another operand. -/
theorem accessOn?_binary {operator second : String} {first last : Char} {front more : List Char}
    (hoperator : IsMnemonic operator.toList) (hregister : asm.register? name = some register)
    (hsecond : second.toList = first :: more) (hfirst : Text.isBlank first = false)
    (hends : first :: more = front ++ [last]) (hlast : Text.isBlank last = false)
    (hcomment : Plain second) :
    asm.accessOn? ("    " ++ operator ++ " " ++ name ++ ", " ++ second) =
      (asm.referent? operator.toList second).map fun (condition?, referent) =>
        { condition?, register, referent } := by
  -- the second operand has a blank in front of it, which is taken off
  have hstrip : Text.strip (String.ofList (' ' :: second.toList)) = second := by
    rw [Text.strip, String.toList_ofList, trim_binary hsecond hfirst hends hlast,
      String.ofList_toList]
  rw [accessOn?, classify_binary hoperator hregister hsecond hends hlast hcomment]
  dsimp only
  rw [access?, cutFirst_binary hregister]
  dsimp only
  rw [String.ofList_toList, strip_of_register hregister, hregister, hstrip]
  rfl

/-- The first of the two lines that replace a load reads a literal. -/
theorem accessOn?_literal (hregister : asm.register? name = some register)
    (hsymbol : Text.strip symbol = symbol) (hplain : Plain symbol) :
    asm.accessOn? (literalLine name symbol) = some ⟨none, register, .literal symbol⟩ := by
  -- the line is one with two operands, the second of which begins with `=`
  have hline : literalLine name symbol =
      "    " ++ "ldr" ++ " " ++ name ++ ", " ++ ("=" ++ symbol) := by
    simp [literalLine, ← String.toList_inj]
  have hsecond : ("=" ++ symbol).toList = '=' :: symbol.toList := by simp
  have hmark : Text.isBlank '=' = false := by decide
  have hlast := Text.isBlank_getLast_cons_trim hmark symbol.toList
  simp only [← Text.toList_strip, hsymbol] at hlast
  have hends := (List.dropLast_concat_getLast (List.cons_ne_nil '=' symbol.toList)).symm
  have hcomment : Plain ("=" ++ symbol) := .append (by decide) hplain
  rw [hline, accessOn?_binary (by decide) hregister hsecond hmark hends hlast hcomment,
    referent?_load, loaded?, hsecond]
  simp

/-- The second one reads what the register points to. -/
theorem accessOn?_pointer (hregister : asm.register? name = some register) :
    asm.accessOn? (pointerLine name) = some ⟨none, register, .pointer register⟩ := by
  have hline : pointerLine name =
      "    " ++ "ldr" ++ " " ++ name ++ ", " ++ ("[" ++ name ++ "]") := by
    simp [pointerLine, ← String.toList_inj]
  have hsecond : ("[" ++ name ++ "]").toList = '[' :: (name.toList ++ [']']) := by simp
  have hends : '[' :: (name.toList ++ [']']) = ('[' :: name.toList) ++ [']'] := rfl
  have hcomment : Plain ("[" ++ name ++ "]") :=
    .append (.append (by decide) (plain_of_register hregister)) (by decide)
  rw [hline, accessOn?_binary (by decide) hregister hsecond (by decide) hends (by decide) hcomment,
    referent?_load, loaded?, hsecond]
  simp [hregister]

theorem plain_literalLine (hregister : asm.register? name = some register) (hplain : Plain symbol) :
    Plain (literalLine name symbol) :=
  .append (.append (.append (by decide) (plain_of_register hregister)) (by decide)) hplain

theorem plain_pointerLine (hregister : asm.register? name = some register) :
    Plain (pointerLine name) :=
  .append (.append (.append (.append (by decide) (plain_of_register hregister)) (by decide))
    (plain_of_register hregister)) (by decide)

/-- The lines of a text are read in their order. -/
theorem mapM_accessOn? {lines : List String} {accesses : List Access} (hsome : lines ≠ [])
    (hplain : ∀ line ∈ lines, Plain line) (hread : lines.mapM asm.accessOn? = some accesses) :
    (Text.piecesOf '\n' (Text.joinWith "\n" lines)).mapM asm.accessOn? = some accesses := by
  have hone : ∀ line ∈ lines, '\n' ∉ line.toList := fun line hline hmem =>
    (hplain line hline '\n' hmem).1 rfl
  rw [Text.piecesOf_joinWith hsome hone, hread]

section Texts

variable (hregister : asm.register? name = some register) (hsymbol : Text.strip symbol = symbol)
  (hplain : Plain symbol)
include hregister hsymbol hplain

theorem mapM_accessOn?_literal :
    (Text.piecesOf '\n' (Text.joinWith "\n" [literalLine name symbol])).mapM asm.accessOn? =
      some [⟨none, register, .literal symbol⟩] := by
  refine mapM_accessOn? (List.cons_ne_nil _ _)
    (List.forall_mem_singleton.2 (plain_literalLine hregister hplain)) ?_
  simp [accessOn?_literal hregister hsymbol hplain]

theorem mapM_accessOn?_literal_pointer :
    (Text.piecesOf '\n' (Text.joinWith "\n" [literalLine name symbol, pointerLine name])).mapM
        asm.accessOn? =
      some [⟨none, register, .literal symbol⟩, ⟨none, register, .pointer register⟩] := by
  refine mapM_accessOn? (List.cons_ne_nil _ _) (List.forall_mem_cons.2
    ⟨plain_literalLine hregister hplain,
      List.forall_mem_singleton.2 (plain_pointerLine hregister)⟩) ?_
  simp [accessOn?_literal hregister hsymbol hplain, accessOn?_pointer hregister]

end Texts

end Assembler

/-! ## Runs -/

namespace Assembler

variable (asm : Assembler) (memory : BitVec 32 → BitVec 32)

/-- What is written to the register, with the words in `memory`. -/
def valueOf (machine : Machine) : Referent → BitVec 32
  | .literal symbol | .nearAddress symbol => asm.addressOf symbol
  | .pointer base => memory (machine.registers base)
  | .nearWord symbol => memory (asm.addressOf symbol)

/-- Runs instructions up to one that writes the program counter, which goes elsewhere. -/
def perform (machine : Machine) : List Access → Machine
  | [] => machine
  | access :: rest =>
    if access.condition?.all (·.holds machine.flags) then
      let machine := machine.set access.register (asm.valueOf memory machine access.referent)
      if access.register = Machine.programCounter then machine else perform machine rest
    else perform machine rest

variable (machine : Machine) (condition? : Option Condition) {register : Fin 16} (symbol : String)

/-- A literal in place of an address that is made relative to the program counter. -/
theorem perform_literal (register : Fin 16) :
    asm.perform memory machine [⟨condition?, register, .literal symbol⟩] =
      asm.perform memory machine [⟨condition?, register, .nearAddress symbol⟩] := rfl

/-- A literal and then the word to which it leads, in place of a word that is found relative to the
program counter. -/
theorem perform_literal_pointer (hsafe : register ≠ Machine.programCounter) :
    asm.perform memory machine
        [⟨condition?, register, .literal symbol⟩, ⟨condition?, register, .pointer register⟩] =
      asm.perform memory machine [⟨condition?, register, .nearWord symbol⟩] := by
  by_cases hholds : condition?.all (·.holds machine.flags) = true
  · -- the first load leaves the flags to the second one
    simp [perform, hholds, hsafe, valueOf, Machine.set]
  · simp [perform, hholds]

/-- A literal that is written to the program counter goes to the symbol, and not to where the word
at the symbol leads. -/
theorem perform_literal_programCounter (rest : List Access) :
    asm.perform memory machine (⟨none, Machine.programCounter, .literal symbol⟩ :: rest) =
      machine.set Machine.programCounter (asm.addressOf symbol) := rfl

end Assembler

end RamOverlay.Thumb2
