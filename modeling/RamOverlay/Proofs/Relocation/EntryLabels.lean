import RamOverlay.Proofs.Relocation.LineChange

/-!
# Labels before entries

The label of a long exit is put before the entry after the block. Without delay slots that entry is
the first of a block, unless the block is the last of its unit.

* **`SourceUnit.Places.line_mem`** and **`lt_or_lt`**: the lines of the blocks, one block after the
  other.
* **`SourceUnit.Places.lineAfter_cases`**: what stands where control goes on behind a block.
* **`SourceUnit.mem_labelsBefore`**: the labels before a line.
-/

namespace RamOverlay

namespace SourceUnit

variable {unit : SourceUnit} {routines : RoutineLabels} {placed : List PlacedBlock}
  {p q : PlacedBlock} {exit : Exit} {line : Nat}

/-- The labels before a line are those of the blocks that fall through to it. -/
theorem mem_labelsBefore {text : String} : text ∈ unit.labelsBefore placed line ↔
    ∃ p ∈ placed, ∃ exit, p.exit? unit.name = some exit ∧ exit.fallsThrough = true ∧
      unit.lineAfter p.block = line ∧ text = Exit.fallthroughLabel p.block.tail.line ++ ":" := by
  unfold labelsBefore PlacedBlock.labelChange
  rw [List.mem_flatMap]
  refine exists_congr fun p => and_congr_right fun _ => ?_
  cases p.exit? unit.name with
  | none => simp
  | some exit =>
    dsimp only
    split
    next h => simp [h]
    next h => simp [and_comm (a := exit.fallsThrough = true), ← and_assoc, h]

namespace Places

variable (h : unit.Places routines placed)
include h

/-- Blocks at one place are the same. -/
theorem eq_of_place {u : BlockId} (hp : p ∈ placed) (hq : q ∈ placed)
    (hu : unit.IsBlock routines u p.block) (hv : unit.IsBlock routines u q.block) : p = q := by
  have : Std.Symm fun p q : PlacedBlock => ∀ u v, unit.IsBlock routines u p.block →
      unit.IsBlock routines v q.block → u ≠ v :=
    ⟨fun p q hpq u v hu hv => (hpq v u hv hu).symm⟩
  by_contra hne
  exact h.once.forall hp hq hne u u hu hv rfl

variable (hparsed : unit.Parsed) (hslots : unit.NoSlots)
include hparsed

/-- A long exit falls through unless the tail never does. -/
theorem fallsThrough_eq (hp : p ∈ placed) (hexit : p.exit? unit.name = some exit) :
    exit.fallsThrough = !p.block.tail.isUnconditional := by
  obtain ⟨u, hu⟩ := h.isBlock p hp
  exact (p.block.leavesBy (PlacedBlock.exit?_eq_some.1 hexit).2).fallsThrough_eq
    (hu.isRead_tail hparsed)

/-- The entries of the blocks are those of the unit, apart from their classes. -/
theorem mem_instructions (hp : p ∈ placed) {insn : Instruction}
    (hinsn : insn ∈ p.block.instructions) : insn.plain ∈ unit.instructions := by
  obtain ⟨u, hu⟩ := h.isBlock p hp
  exact List.mem_of_getElem? (hu.getElem?_address hparsed.fresh hinsn)

/-- Of two blocks, one is behind the other. -/
theorem lt_or_lt (hp : p ∈ placed) (hq : q ∈ placed) (hne : p ≠ q) :
    p.block.tail.line < q.block.line ∨ q.block.tail.line < p.block.line := by
  obtain ⟨u, hu⟩ := h.isBlock p hp
  obtain ⟨v, hv⟩ := h.isBlock q hq
  rcases Nat.lt_trichotomy u v with hlt | rfl | hlt
  · exact .inl (hu.line_lt_line hparsed hv hlt (Block.tail_mem _) List.mem_cons_self)
  · exact absurd (h.eq_of_place hp hq hu hv) hne
  · exact .inr (hv.line_lt_line hparsed hu hlt (Block.tail_mem _) List.mem_cons_self)

include hslots

/-- A block stands on the lines from its first to its last entry. -/
theorem line_mem (hp : p ∈ placed) (hline : p.StandsOn line) :
    p.block.line ≤ line ∧ line ≤ p.block.tail.line := by
  obtain ⟨insn, hinsn, rfl⟩ := hline
  obtain ⟨u, hu⟩ := h.isBlock p hp
  exact hu.line_mem hparsed hslots hinsn

/-- Where control goes on behind a block, the next block begins, or the unit has no more entries. -/
theorem lineAfter_cases (hp : p ∈ placed) (hfalls : p.block.tail.isUnconditional = false) :
    (∃ q ∈ placed, q.block.line = unit.lineAfter p.block ∧
        q.block.address = p.block.last.address + 1) ∨
      unit.instructions[p.block.last.address + 1]? = none ∧
        unit.lineAfter p.block = p.block.tail.line + 1 ∧
        ∀ insn ∈ unit.instructions, insn.line < unit.lineAfter p.block := by
  have hfresh := hparsed.fresh
  obtain ⟨u, hu⟩ := h.isBlock p hp
  cases hnext : unit.instructions[p.block.last.address + 1]? with
  | some next =>
    -- the block at the next place begins with that entry, and is placed as all are
    obtain ⟨cut, hcut, rfl⟩ := hu.exists_next hfresh hslots.plainSlots hfalls hnext
    obtain ⟨q, hq, hv⟩ := h.all (u + 1) (List.getElem?_eq_some_iff.1 hcut).1
    obtain ⟨cut', hcut', hplain⟩ := hv.exists_plain_eq
    obtain rfl : cut = cut' := Option.some.inj (hcut.symm.trans hcut')
    have hfirst := Block.first_eq_of_plain hplain
    have hline : q.block.first.plain.line = cut.first.plain.line := congrArg (·.line) hfirst
    have haddress : q.block.first.plain.address = cut.first.plain.address :=
      congrArg (·.address) hfirst
    refine .inl ⟨q, hq, ?_, haddress.trans ?_⟩
    · rw [lineAfter, hnext]
      exact hline
    · exact hfresh.address _ cut.first hnext
  | none =>
    have hlast : p.block.last ∈ p.block.instructions := by
      rw [← hu.tail_eq_last hfresh hslots]
      exact p.block.tail_mem
    have hget := hu.getElem?_address hfresh hlast
    have hafter : unit.lineAfter p.block = p.block.last.line + 1 := by rw [lineAfter, hnext]
    refine .inr ⟨rfl, by rw [hafter, hu.tail_eq_last hfresh hslots], fun insn hinsn => ?_⟩
    obtain ⟨a, ha⟩ := List.mem_iff_getElem?.1 hinsn
    have hle : a < p.block.last.address + 1 :=
      Nat.lt_of_lt_of_le (List.getElem?_eq_some_iff.1 ha).1 (List.getElem?_eq_none_iff.1 hnext)
    rw [hafter]
    rcases Nat.lt_or_eq_of_le (Nat.le_of_lt_succ hle) with hlt | rfl
    · have hline : insn.line < p.block.last.plain.line := hparsed.line_lt_line ha hget hlt
      exact Nat.lt_succ_of_lt hline
    · obtain rfl : insn = p.block.last.plain := Option.some.inj (ha.symm.trans hget)
      exact Nat.lt_succ_self _

/-- Behind the label of a long exit the next block begins, or the unit has no more entries. -/
theorem labelsBefore_cases {text : String} (htext : text ∈ unit.labelsBefore placed line) :
    (∃ q ∈ placed, q.block.line = line) ∨ ∀ insn ∈ unit.instructions, insn.line < line := by
  obtain ⟨p, hp, exit, hexit, hfalls, rfl, -⟩ := mem_labelsBefore.1 htext
  rw [h.fallsThrough_eq hparsed hp hexit, Bool.not_eq_true'] at hfalls
  rcases h.lineAfter_cases hparsed hslots hp hfalls with ⟨q, hq, hline, -⟩ | ⟨-, -, hbehind⟩
  · exact .inl ⟨q, hq, hline⟩
  · exact .inr hbehind

end Places

end SourceUnit

end RamOverlay
