import RamOverlay.Ascending
import RamOverlay.Flow.AddressSet
import RamOverlay.Source.Unit

/-!
# Discovery of code

Which entries of a unit can be run, and where blocks begin and end among them. Walks start at the
routine labels that the unit defines; each walk goes on from entry to entry until it comes to one
that was walked before, or to a branch. Branches and calls give new places to start from, and the
lowest of them is always taken next, each once.
-/

namespace RamOverlay

/-- The labels at which routines start. -/
abbrev RoutineLabels := List String

namespace Discovery

/-- The marks that the walks leave on the entries of a unit, and the places still to start from. -/
structure Walk where
  walked : AddressSet
  /-- The entries before which a block ends. -/
  cutBefore : AddressSet
  /-- The entries after which a block ends. -/
  cutAfter : AddressSet
  /-- The places from which a walk has started. -/
  taken : AddressSet
  /-- The places from which a walk is to start, ascending. -/
  pending : List Nat
  deriving DecidableEq, Repr

namespace Walk

/-- No marks on `n` entries. A walk may be asked for at the place behind the last entry. -/
def start (n : Nat) (pending : List Nat) : Walk :=
  { walked := .empty n, cutBefore := .empty n, cutAfter := .empty n, taken := .empty (n + 1)
    pending }

/-- Asks for a walk from a place, unless there was one. -/
def enqueue (walk : Walk) (address : Nat) : Walk :=
  if walk.taken.contains address then walk
  else { walk with pending := Ascending.insert address walk.pending }

def visit (walk : Walk) (address : Nat) : Walk :=
  { walk with walked := walk.walked.insert address }

end Walk

variable (unit : SourceUnit) (routines : RoutineLabels)

/-- What a call leads to: its target, if the unit defines it, and the entry after the call. -/
def followCall (address : Nat) (insn : Instruction) (walk : Walk) : Traced Walk :=
  if insn.isCall then
    match insn.destination.label? with
    | none => pure walk
    | some label =>
      match unit.addressOf? label with
      | some target => pure ((walk.enqueue target).enqueue (address + 1))
      | none => do
        Traced.report (.callNotLocatable unit.name insn.line label)
        return walk
  else pure walk

/-- Where a branch goes if its label is one of this unit and of no routine. -/
def localTarget? (insn : Instruction) : Option Nat :=
  match insn.destination.label? with
  | some label => if label ∈ routines then none else unit.addressOf? label
  | none => none

/-- What a branch leads to: a local target, and the entry after the branch and its delay slot if it
can fall through. -/
def followBranch (address : Nat) (insn : Instruction) (walk : Walk) : Walk :=
  let walk :=
    match localTarget? unit routines insn with
    | some target =>
      { walk with cutBefore := walk.cutBefore.insert target }.enqueue target
    | none => walk
  let walk := { walk with cutAfter := walk.cutAfter.insert address }
  let hasSlot := insn.delaySlot && address + 1 < unit.instructions.length
  let walk := if hasSlot then walk.visit (address + 1) else walk
  if insn.isUnconditional then walk
  else walk.enqueue (address + 1 + if hasSlot then 1 else 0)

/-- Walks along the entries from `address` on; the walk started at `start`. -/
def walkFrom (start : Nat) (address : Nat) (entries : List Instruction) (walk : Walk) :
    Traced Walk :=
  match entries with
  | [] => pure walk
  | insn :: rest =>
    if address ≠ start ∧ walk.walked.contains address then pure walk
    else do
      let walk ← followCall unit address insn (walk.visit address)
      if insn.isBranch then return followBranch unit routines address insn walk
      else walkFrom start (address + 1) rest walk

/-- Takes the lowest pending place and walks from it, until none is pending. Each of the `n + 1`
places is taken at most once, so as much fuel never runs out. -/
def drain (fuel : Nat) (walk : Walk) : Traced Walk :=
  match fuel, walk.pending with
  | 0, _ | _, [] => pure walk
  | fuel + 1, start :: pending => do
    let walk := { walk with pending, taken := walk.taken.insert start }
    if start < unit.instructions.length then
      let walk := { walk with cutBefore := walk.cutBefore.insert start }
      let walk ← walkFrom unit routines start start (unit.instructions.drop start) walk
      drain fuel walk
    else
      Traced.report (.startOutsideUnit unit.name start)
      drain fuel walk

/-- The addresses of the routine labels that the unit defines. -/
def entrances : List Nat := Ascending.ofList (routines.filterMap unit.addressOf?)

/-- Marks all code of the unit that can be run from its routine labels. -/
def discover : Traced Walk :=
  let n := unit.instructions.length
  drain unit routines (n + 1) (.start n (entrances unit routines))

end Discovery

end RamOverlay
