import RamOverlay.Relocation.EditList
import RamOverlay.Flow.Graph
import RamOverlay.Traced

/-!
# Blocks in RAM

A block that is run from RAM stands in the overlay section. Calls leave it through a register, an
address relative to the program counter becomes a literal, and a branch into another routine becomes
a load of the program counter.
-/

namespace RamOverlay.EditList

def ramSection : String := "ramoverlay"

/-- Replaces an instruction that does not work from RAM. -/
def replaceForRam (register : String) (edits : EditList) (insn : Instruction) : EditList :=
  if insn.isCall then
    match insn.destination.label? with
    | some label =>
      edits.replace insn.line ("    ldr " ++ register ++ ", =" ++ label ++ "\n    blx " ++ register)
    | none => edits
  else if insn.isAddressGenerator then
    match Text.cutFirstOf ',' insn.operands with
    | some (target, symbol) =>
      edits.replace insn.line ("    ldr " ++ Text.strip target ++ ", =" ++ Text.strip symbol)
    | none => edits
  else edits

/-- Replaces a branch into another routine at the end of a block. -/
def replaceTailCall (unit : String) (edits : EditList) (tail : Instruction) : Traced EditList :=
  match tail.destination.label?, tail.isUnconditional with
  | some label, true => pure (edits.replace tail.line ("    ldr pc, =" ++ label ++ "+1"))
  | _, _ => do
    Traced.report (.conditionalTailCall unit tail.line)
    return edits

/-- Moves a block to RAM. An `instrumented` block has a long exit already. -/
def moveToRam (edits : EditList) (unit : String) (block : Block) (register : String)
    (instrumented : Bool) : Traced EditList := do
  let edits := block.instructions.foldl (replaceForRam register) edits
  let tail := block.tail
  let edits ←
    if tail.isForcedCall && !instrumented then replaceTailCall unit edits tail else pure edits
  let edits := edits.after tail.line ".text\n.align 2"
  return edits.before block.line (".section " ++ ramSection ++ ", \"x\"\n.align 2")

/-- A comment that names the block, behind its label if it has one. -/
def markStart (edits : EditList) (unit : String) (block : Block) : EditList :=
  let mark := "# break " ++ unit ++ ":" ++ Text.decimal block.line
  if block.first.isLabel then edits.after block.line mark else edits.before block.line mark

end RamOverlay.EditList
