import RamOverlay.Flow.Discovery
import RamOverlay.Flow.Graph

/-!
# Formation of blocks

The walked entries of a unit, cut into blocks at the marks of the walks. A delay slot stays in the
block of its branch and ends it.
-/

namespace RamOverlay.Discovery

/-- The block `current` with `insn` at its end, or a new block of `insn`. -/
def extend (current : Option Block) (insn : Instruction) : Block :=
  match current with
  | some block => block.push insn
  | none => { first := insn }

/-- The blocks among the entries from `address` on, after the unfinished block `current`. -/
def formFrom (walk : Walk) (address : Nat) (current : Option Block) :
    List Instruction → List Block
  | [] => current.toList
  | insn :: rest =>
    if walk.walked.contains address then
      let ended := if walk.cutBefore.contains address then current else none
      let current := if walk.cutBefore.contains address then none else current
      let block := extend current insn
      ended.toList ++
        match rest with
        | slot :: rest' =>
          if insn.isBranch && insn.delaySlot then
            block.push slot :: formFrom walk (address + 2) none rest'
          else if walk.cutAfter.contains address then
            block :: formFrom walk (address + 1) none (slot :: rest')
          else formFrom walk (address + 1) (some block) (slot :: rest')
        | [] => [block]
    else current.toList ++ formFrom walk (address + 1) none rest

/-- The blocks of the walked entries, in address order. -/
def formBlocks (walk : Walk) (entries : List Instruction) : List Block :=
  formFrom walk 0 none entries

end RamOverlay.Discovery
