import RamOverlay.Relocation.EditList
import RamOverlay.Flow.Graph
import RamOverlay.Thumb2.Condition

/-!
# Exits across the memory boundary

A relative branch does not reach from flash to RAM or back. A block whose exit crosses the boundary
is left through an address in a register instead, or in the program counter itself: by a long exit.
A long exit that can fall through goes to a new label that stands before the entry after the block.
-/

namespace RamOverlay

/-- A block that cannot get a long exit. -/
structure ExitError where
  unit : String
  line : Nat
  insn : String
  reason : String
  deriving DecidableEq, Repr

def ExitError.message (e : ExitError) : String :=
  e.unit ++ ":" ++ Text.decimal e.line ++ ": cannot instrument `" ++ e.insn ++ "`: " ++ e.reason

/-- Whether the exit of a block crosses the boundary: a block in flash has a successor in RAM, or a
block in RAM a successor in flash. -/
def Graph.needsInstrumentation (graph : Graph) (id : BlockId) : Bool :=
  let successors := graph.successors id
  if graph.inRam id then successors.any fun other => !graph.inRam other
  else successors.any graph.inRam

/-- The ways in which a block can leave for another memory. -/
inductive Exit where
  /-- After comparing a register with zero, to the label or to the entry after the block. -/
  | compare (condition : Thumb2.Condition) (register label : String)
  | always (label : String)
  | fallthrough
  /-- On a condition to the label, otherwise to the entry after the block. -/
  | conditional (condition : Thumb2.Condition) (label : String)
  deriving DecidableEq, Repr

namespace Exit

/-- Whether the exit can go to the entry after the block. -/
def fallsThrough : Exit → Bool
  | always _ => false
  | compare .. | fallthrough | conditional .. => true

/-- The label before the entry after a block whose tail is on `line`. -/
def fallthroughLabel (line : Nat) : String := "fallthrough_" ++ Text.decimal line

/-- Loads of one of two addresses, by a condition, and the jump. -/
def selection (register : String) (condition : Thumb2.Condition) (label : String) (line : Nat) :
    String :=
  "    ite " ++ condition.suffix
    ++ "\n    ldr" ++ condition.suffix ++ " " ++ register ++ ", =" ++ label ++ "+1"
    ++ "\n    ldr" ++ condition.inverse.suffix ++ " " ++ register ++ ", ="
    ++ fallthroughLabel line ++ "+1"
    ++ "\n    bx " ++ register

/-- The text of an exit of a block whose tail is on `line`; it may change `register`. -/
def code (exit : Exit) (register : String) (line : Nat) : String :=
  match exit with
  | compare condition compared label =>
    "    # cbz/cbnz conditional indirect\n    cmp " ++ compared ++ ", #0\n"
      ++ selection register condition label line ++ "\n    .ltorg"
  | always label => "    # Unconditional indirect\n    ldr pc, =" ++ label ++ "+1\n    .ltorg"
  | fallthrough =>
    "    # Fallthrough indirect\n    ldr pc, =" ++ fallthroughLabel line ++ "+1\n    .ltorg"
  | conditional condition label =>
    "    # Conditional indirect\n" ++ selection register condition label line ++ "\n.ltorg"

end Exit

namespace Block

/-- The error for a block that cannot get a long exit. -/
def exitError (block : Block) (unit reason : String) : ExitError :=
  let tail := block.tail
  { unit, line := tail.line, insn := Text.strip tail.text, reason }

/-- How the block is left through an address. -/
def exit (block : Block) (unit : String) : Except ExitError Exit :=
  let tail := block.tail
  if tail.isBranch && tail.destination == .indirect then
    .error (block.exitError unit "branch target is not a label")
  else
    let label := (tail.destination.label?).getD ""
    if tail.isCompareBranch then
      let condition := if tail.strippedOperator = "cbnz" then .ne else .eq
      let compared := Text.strip (((Text.piecesOf ',' tail.operands).head?).getD "")
      .ok (.compare condition compared label)
    else if tail.isUnconditional then .ok (.always label)
    else if !tail.isBranch then .ok .fallthrough
    else
      match Thumb2.Condition.ofBranch? tail.operator with
      | some condition => .ok (.conditional condition label)
      | none => .error (block.exitError unit "condition has no supported inverse")

end Block

/-- The edits of a unit while it is relocated. The labels before the entries after blocks are kept
apart, so that they come behind all other texts before their lines. -/
structure UnitEdits where
  main : EditList := {}
  labels : EditList := {}
  deriving DecidableEq, Repr

namespace UnitEdits

/-- Gives a block a long exit. The entry after the block is on line `nextLine`. -/
def instrument (edits : UnitEdits) (unit : String) (block : Block) (nextLine : Nat)
    (register : String) : Except ExitError UnitEdits := do
  let exit ← block.exit unit
  let tail := block.tail
  let main := edits.main.after tail.line (exit.code register tail.line)
  let main := if tail.isBranch then main.remove tail.line else main
  let main := main.before block.line ("# INSTRUMENTED " ++ Text.decimal block.line)
  let labels :=
    if exit.fallsThrough then
      edits.labels.before nextLine (Exit.fallthroughLabel tail.line ++ ":")
    else edits.labels
  return { main, labels }

def all (edits : UnitEdits) : EditList := edits.main ++ edits.labels

end UnitEdits

end RamOverlay
