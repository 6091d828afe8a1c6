import RamOverlay.Flow.Block
import RamOverlay.Relocation.EditList

/-!
# References that survive a move

A literal that is read relative to the program counter is out of reach once a block has moved. Such
a load is replaced by a load of the address of the literal and a load from it, and the block is
aligned. The addresses need a literal pool, which goes behind a tail that never falls through.
-/

namespace RamOverlay

/-- The register and the symbol of a load relative to the program counter. -/
def Instruction.literalLoad? (insn : Instruction) : Option (String × String) :=
  let isComputed := Text.mentions "[" insn.operands || Text.mentions "=" insn.operands
  if insn.operator = "ldr" ∧ !isComputed then
    (Text.cutFirstOf ',' insn.operands).map fun (register, symbol) =>
      (Text.strip register, Text.strip symbol)
  else none

namespace EditList

/-- Loads the address of the literal first, and then what is there. -/
def replaceLoad (edits : EditList) (insn : Instruction) : EditList :=
  match insn.literalLoad? with
  | some (register, symbol) =>
    edits.replace insn.line <|
      "    ldr " ++ register ++ ", =" ++ symbol
        ++ "\n    ldr " ++ register ++ ", [" ++ register ++ "]"
  | none => edits

/-- Replaces the loads of a block, adds a literal pool behind its tail unless the exit is
`instrumented` and brings a pool of its own, and aligns the block. -/
def relocateReferences (edits : EditList) (block : Block) (instrumented : Bool) : EditList :=
  let edits := block.instructions.foldl replaceLoad edits
  let tail := block.tail
  let edits :=
    if tail.isUnconditional && !tail.isCall && !instrumented then edits.after tail.line ".ltorg"
    else edits
  edits.before block.line ".align 2"

end EditList

end RamOverlay
