import Mathlib.Data.List.Pairwise
import RamOverlay.Proofs.Relocation.Layout

/-!
# What relocation changes about a line

Each pass changes only lines on which a block has an entry, so a line is changed for one block only,
apart from the labels that come before it for the exits of other blocks.

* **`PlacedBlock.change`**: what all passes change for a block about a line, with a lemma for each
  part.
* **`SourceUnit.Places.changesAt_of_standsOn`**: on a line of a block, only that block and the
  labels count; **`changesAt_of_not_standsOn`**: elsewhere only the labels.
* **`SourceUnit.relocate_cases`**: what a relocation that succeeds tells about its edits.
-/

namespace RamOverlay

namespace PlacedBlock

variable (placed : PlacedBlock) (unit register : String) (line : Nat)

/-- The block has an entry on the line. -/
def StandsOn : Prop := ∃ insn ∈ placed.block.instructions, insn.line = line

/-- What all passes, but for the labels, change for the block about a line. -/
def change : LineEdits :=
  (((placed.loadChange line).append (placed.exitChange register line unit)).append
    (if placed.inRam then placed.ramChange register line else {})).append
    (placed.markChange line unit)

/-- The texts before the first line of the block, in order. -/
def opening : List String :=
  ".align 2" ::
    ((if (placed.exit? unit).isSome then ["# INSTRUMENTED " ++ Text.decimal placed.block.line]
      else []) ++
    ((if placed.inRam then [".section " ++ EditList.ramSection ++ ", \"x\"\n.align 2"] else []) ++
      if placed.block.first.isLabel then [] else [placed.mark unit]))

/-- The texts behind the tail of the block, in order. -/
def closing : List String :=
  (if placed.hasPool then [".ltorg"] else []) ++
    (((placed.exit? unit).map fun exit => exit.code register placed.block.tail.line).toList ++
      if placed.inRam then [".text\n.align 2"] else [])

/-- The texts in the place of a line of the block. -/
def replacements : List String :=
  (placed.block.entriesOn line).filterMap Instruction.loadText? ++
    if placed.inRam then
      (placed.block.entriesOn line).filterMap (Instruction.ramText? register) ++
        if placed.block.tail.line = line ∧ placed.crosses = false then
          placed.block.tail.tailCallText?.toList
        else []
    else []

variable {placed unit register line}

theorem standsOn_line (placed : PlacedBlock) : placed.StandsOn placed.block.line :=
  ⟨_, List.mem_cons_self, rfl⟩

theorem standsOn_tail (placed : PlacedBlock) : placed.StandsOn placed.block.tail.line :=
  ⟨_, placed.block.tail_mem, rfl⟩

/-- What the exit does: the tail goes, if it branches, and the code comes behind it. -/
theorem exitChange_eq : placed.exitChange register line unit =
    { removed := placed.block.tail.line == line && placed.block.tail.isBranch &&
        (placed.exit? unit).isSome
      before := if placed.block.line = line ∧ (placed.exit? unit).isSome = true then
          ["# INSTRUMENTED " ++ Text.decimal placed.block.line]
        else []
      after := if placed.block.tail.line = line then
          ((placed.exit? unit).map fun exit => exit.code register placed.block.tail.line).toList
        else [] } := by
  unfold exitChange
  cases placed.exit? unit with
  | none => simp
  | some exit => simp

/-- What the mark does: it stands before the first line, or behind it if this is a label. -/
theorem markChange_eq : placed.markChange line unit =
    { before := if placed.block.line = line ∧ placed.block.first.isLabel = false then
          [placed.mark unit]
        else []
      after := if placed.block.line = line ∧ placed.block.first.isLabel = true then
          [placed.mark unit]
        else [] } := by
  unfold markChange
  by_cases hfirst : placed.block.line = line <;> cases placed.block.first.isLabel <;> simp [hfirst]

/-- A line is taken out only if it is a branch that has an exit in its place. -/
theorem removed_change : (placed.change unit register line).removed =
    (placed.block.tail.line == line && placed.block.tail.isBranch &&
      (placed.exit? unit).isSome) := by
  unfold change
  rw [exitChange_eq, markChange_eq]
  cases placed.inRam <;> simp [LineEdits.append, loadChange, ramChange]

theorem inPlace_change : (placed.change unit register line).inPlace =
    placed.replacements register line := by
  unfold change replacements
  rw [exitChange_eq, markChange_eq]
  cases placed.inRam <;> simp [LineEdits.append, loadChange, ramChange]

/-- The switch to RAM and the mark stand before the first line of a block. -/
theorem before_change : (placed.change unit register line).before =
    if placed.block.line = line then placed.opening unit else [] := by
  unfold change opening
  rw [exitChange_eq, markChange_eq]
  by_cases hfirst : placed.block.line = line
  · cases placed.inRam <;> cases placed.block.first.isLabel <;>
      simp [LineEdits.append, loadChange, ramChange, hfirst]
  · cases placed.inRam <;> simp [LineEdits.append, loadChange, ramChange, hfirst]

/-- The exit and the switch back stand behind the tail. -/
theorem after_change : (placed.change unit register line).after =
    (if placed.block.tail.line = line then placed.closing unit register else []) ++
      if placed.block.line = line ∧ placed.block.first.isLabel = true then [placed.mark unit]
      else [] := by
  unfold change closing
  rw [exitChange_eq, markChange_eq]
  by_cases htail : placed.block.tail.line = line
  · cases placed.inRam <;> simp [LineEdits.append, loadChange, ramChange, htail]
  · cases placed.inRam <;> simp [LineEdits.append, loadChange, ramChange, htail]

theorem entriesOn_eq_nil (h : ¬ placed.StandsOn line) : placed.block.entriesOn line = [] :=
  List.filter_eq_nil_iff.2 fun insn hinsn heq => h ⟨insn, hinsn, beq_iff_eq.1 heq⟩

section Elsewhere

variable (h : ¬ placed.StandsOn line)
include h

theorem line_ne : placed.block.line ≠ line := fun heq => h (heq ▸ placed.standsOn_line)

theorem tail_line_ne : placed.block.tail.line ≠ line := fun heq => h (heq ▸ placed.standsOn_tail)

theorem loadChange_eq_empty : placed.loadChange line = {} := by
  simp [loadChange, entriesOn_eq_nil h, line_ne h, tail_line_ne h]

theorem exitChange_eq_empty : placed.exitChange register line unit = {} := by
  simp [exitChange_eq, line_ne h, tail_line_ne h]

theorem ramChange_eq_empty : placed.ramChange register line = {} := by
  simp [ramChange, entriesOn_eq_nil h, line_ne h, tail_line_ne h]

theorem markChange_eq_empty : placed.markChange line unit = {} := if_neg (line_ne h)

end Elsewhere

end PlacedBlock

/-! ## Lines of one block -/

namespace SourceUnit

variable {unit : SourceUnit} {routines : RoutineLabels} {register : String}
  {placed : List PlacedBlock} {p q : PlacedBlock} {line : Nat}

/-- The labels that come before a line, in order. -/
def labelsBefore (unit : SourceUnit) (placed : List PlacedBlock) (line : Nat) : List String :=
  placed.flatMap fun p => (p.labelChange unit line).before

/-- The labels of all blocks that fall through to a line, in the order of the blocks. -/
theorem concat_labelChange (unit : SourceUnit) (placed : List PlacedBlock) (line : Nat) :
    LineEdits.concat (placed.map (·.labelChange unit line)) =
      { before := unit.labelsBefore placed line } := by
  -- a label only ever puts something before the line
  have hbefore : ∀ p : PlacedBlock,
      p.labelChange unit line = { before := (p.labelChange unit line).before } := by
    intro p
    unfold PlacedBlock.labelChange
    split
    · split <;> rfl
    · rfl
  induction placed with
  | nil => rfl
  | cons p placed ih =>
    rw [List.map_cons, LineEdits.concat_cons, ih, hbefore p]
    rfl

/-- No two of the blocks have entries on one line. -/
def DisjointLines (placed : List PlacedBlock) : Prop :=
  placed.Pairwise fun p q => ∀ line, ¬ (p.StandsOn line ∧ q.StandsOn line)

/-- A line is in one block only. -/
theorem DisjointLines.eq_of_standsOn (h : DisjointLines placed) (hp : p ∈ placed) (hq : q ∈ placed)
    (hline : p.StandsOn line) (hline' : q.StandsOn line) : p = q := by
  have : Std.Symm fun p q : PlacedBlock => ∀ line, ¬ (p.StandsOn line ∧ q.StandsOn line) :=
    ⟨fun p q hpq line hboth => hpq line hboth.symm⟩
  by_contra hne
  exact List.Pairwise.forall h hp hq hne line ⟨hline, hline'⟩

/-- What is done to a line of a block: the change of the block, and the labels of those before it.
-/
theorem changesAt_of_standsOn (hdisjoint : DisjointLines placed) (hp : p ∈ placed)
    (hline : p.StandsOn line) : unit.changesAt register placed line =
      { p.change unit.name register line with
        before := (p.change unit.name register line).before ++ unit.labelsBefore placed line } := by
  have hothers := hdisjoint.imp fun {p q} h => h line
  -- of each pass only the changes for this block are left
  have hone : ∀ (change : PlacedBlock → LineEdits),
      (∀ q, ¬ q.StandsOn line → change q = {}) → LineEdits.concat (placed.map change) = change p :=
    fun change hempty => LineEdits.concat_map_eq hp (·.StandsOn line) hline hothers
      fun q _ => hempty q
  have happend : ∀ (change : LineEdits) (labels : List String),
      { change with before := change.before ++ labels } = change.append { before := labels } := by
    intro change labels
    simp [LineEdits.append]
  rw [happend]
  unfold changesAt PlacedBlock.change
  rw [LineEdits.concat_map_filter, concat_labelChange, hone, hone, hone]
  · exact fun q hq => PlacedBlock.markChange_eq_empty hq
  · exact fun q hq => by rw [PlacedBlock.ramChange_eq_empty hq, ite_self]
  · intro q hq
    rw [PlacedBlock.loadChange_eq_empty hq, PlacedBlock.exitChange_eq_empty hq,
      LineEdits.append_empty]

/-- What is changed for a block is among what all passes change. -/
theorem within_changesAt (hp : p ∈ placed) :
    (p.change unit.name register line).Within (unit.changesAt register placed line) := by
  unfold changesAt PlacedBlock.change
  rw [LineEdits.concat_map_filter]
  refine .trans (.append (.append ?_ ?_) ?_) LineEdits.within_append_left
  · apply LineEdits.within_concat_map hp
  · apply LineEdits.within_concat_map hp
  · apply LineEdits.within_concat_map hp

/-- A line outside of all blocks gets labels at most. -/
theorem changesAt_of_not_standsOn (h : ∀ p ∈ placed, ¬ p.StandsOn line) :
    unit.changesAt register placed line = { before := unit.labelsBefore placed line } := by
  unfold changesAt
  rw [LineEdits.concat_map_filter, concat_labelChange, LineEdits.concat_map_eq_empty,
    LineEdits.concat_map_eq_empty, LineEdits.concat_map_eq_empty]
  · rfl
  · exact fun p hp => PlacedBlock.markChange_eq_empty (h p hp)
  · exact fun p hp => by rw [PlacedBlock.ramChange_eq_empty (h p hp), ite_self]
  · intro p hp
    rw [PlacedBlock.loadChange_eq_empty (h p hp), PlacedBlock.exitChange_eq_empty (h p hp),
      LineEdits.append_empty]

/-- Blocks of a parsed unit have no line in common. -/
theorem Places.disjointLines (h : unit.Places routines placed) (hparsed : unit.Parsed) :
    DisjointLines placed := by
  refine h.once.imp_of_mem fun {p q} hp hq hne line => ?_
  rintro ⟨⟨insn, hinsn, rfl⟩, insn', hinsn', hline⟩
  obtain ⟨u, hu⟩ := h.isBlock p hp
  obtain ⟨v, hv⟩ := h.isBlock q hq
  rcases Nat.lt_or_gt_of_ne (hne u v hu hv) with hlt | hlt
  · exact Nat.ne_of_lt (hu.line_lt_line hparsed hv hlt hinsn hinsn') hline.symm
  · exact Nat.ne_of_lt (hv.line_lt_line hparsed hu hlt hinsn' hinsn) hline

/-- A relocation that succeeds: every block gets the long exit that it needs, and each line is
changed as the passes say. -/
theorem relocate_cases {graphs : List Graph} {edits : EditList} {stats : RelocationStats}
    (h : (unit.relocate register graphs).run.value = .ok (edits, stats)) :
    (∀ p ∈ unit.placedBlocks graphs, p.crosses = true →
      ∃ exit, p.exit? unit.name = some exit) ∧
    (∀ line, edits.atLine line = unit.changesAt register (unit.placedBlocks graphs) line) ∧
    edits.dataTexts = [] := by
  rw [value_relocate] at h
  split at h
  next => cases h
  next hnone =>
    obtain ⟨rfl, -⟩ := Prod.mk.inj (Except.ok.inj h)
    refine ⟨fun p hp hcrosses => ?_, atLine_relocationEdits _, dataTexts_relocationEdits _⟩
    -- no block fails, and one that crosses fails exactly if it has no exit
    have hfailure := List.findSome?_eq_none_iff.1 hnone p hp
    unfold PlacedBlock.failure? at hfailure
    rw [if_pos hcrosses] at hfailure
    cases hexit : p.block.exit unit.name with
    | error e =>
      rw [hexit] at hfailure
      cases hfailure
    | ok exit => exact ⟨exit, PlacedBlock.exit?_eq_some.2 ⟨hcrosses, hexit⟩⟩

end SourceUnit

end RamOverlay
