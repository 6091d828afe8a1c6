import RamOverlay.Proofs.Code.RoutineEdges

/-!
# Conditional instructions

Control goes on behind an instruction with a condition suffix, since its condition may not hold.

* **`Instruction.IsConditional`**: such an instruction is no branch, unless it loads the program
  counter together with other registers (`isUnconditional_eq`).
* **`tail_of_last`**: the tail of a block that ends with a plain entry.
* **`Graph.GoesOn`**: what it means for an entry that the next one may be run after it.
* **`goesOn_iff_of_conditional`**: all conditional instructions have this property but for the loads
  of the program counter, which are taken for returns without a condition, and for the delay slots
  of branches that never fall through.
-/

namespace RamOverlay

open Discovery

/-! ## Mnemonics with a condition -/

namespace Instruction

variable {insn : Instruction}

/-- The mnemonic carries a condition suffix. -/
def IsConditional (insn : Instruction) : Prop := insn.strippedOperator ≠ insn.operator

instance (insn : Instruction) : Decidable insn.IsConditional :=
  inferInstanceAs (Decidable (insn.strippedOperator ≠ insn.operator))

/-- The mnemonics of branches and calls are too short for a condition suffix. -/
theorem size_lt_of_mem {operator : String}
    (h : operator ∈ Thumb2.unconditionalBranches ++ Thumb2.conditionalBranches ++
      Thumb2.compareBranches ++ Thumb2.pcWriters ++ Thumb2.tableBranches) :
    operator.utf8ByteSize < Thumb2.minConditionedSize := by
  revert operator
  decide

/-- With a condition behind it a mnemonic is long enough for its suffix to be looked at. -/
theorem IsConditional.le_size (h : insn.IsConditional) :
    ¬ insn.operator.utf8ByteSize < Thumb2.minConditionedSize := by
  intro hlt
  refine h ?_
  rw [strippedOperator, Thumb2.stripCondition, if_pos hlt]

/-- A conditional instruction is a branch only if it loads the program counter, and then it is taken
for one that never falls through. -/
theorem IsConditional.isBranch_eq (h : insn.IsConditional) (hclass : insn.callClass = .natural) :
    insn.isBranch = insn.loadsPc ∧ insn.isUnconditional = insn.loadsPc := by
  -- all mnemonics of the tables are too short to have a condition taken off
  have hnot : ∀ table : List String, (∀ operator ∈ table, operator ∈ Thumb2.unconditionalBranches ++
      Thumb2.conditionalBranches ++ Thumb2.compareBranches ++ Thumb2.pcWriters ++
        Thumb2.tableBranches) → table.contains insn.operator = false := by
    intro table hsub
    refine Bool.eq_false_iff.mpr fun hmem => h.le_size (size_lt_of_mem (hsub _ ?_))
    exact List.contains_iff_mem.mp hmem
  -- so of all tests for a branch only the one for the program counter is left
  have hnever : insn.neverFallsThrough = insn.loadsPc := by
    rw [neverFallsThrough, writesPc, isTableBranch, hclass,
      hnot Thumb2.unconditionalBranches (by simp +contextual),
      hnot Thumb2.pcWriters (by simp +contextual), hnot Thumb2.tableBranches (by simp +contextual)]
    simp
  have hbranch : insn.isBranch = insn.loadsPc := by
    rw [isBranch, isCompareBranch, hnever, hnot Thumb2.conditionalBranches (by simp +contextual),
      hnot Thumb2.compareBranches (by simp +contextual)]
    simp
  rw [isUnconditional, hbranch, hnever, Bool.and_self]
  exact ⟨rfl, rfl⟩

end Instruction

/-! ## Ends of blocks -/

section Last

variable {unit : SourceUnit} {routines : RoutineLabels} {cut : Block} {id : BlockId} {a : Nat}
  {insn : Instruction}

/-- A block that ends with an entry that is no branch has it for its tail, unless that is the delay
slot of the branch before. -/
theorem tail_of_last (hfresh : unit.Fresh) (hcut : cut ∈ cutBlocks unit routines)
    (hlast : cut.last.address = a) (hinsn : unit.instructions[a]? = some insn)
    (hbranch : insn.isBranch = false) :
    ¬ unit.Slot routines a ∧ cut.tail = insn ∨
      ∃ b, a = b + 1 ∧ unit.Reached routines b ∧ unit.instructions[b]? = some cut.tail ∧
        cut.tail.isBranch = true ∧ cut.tail.delaySlot = true := by
  have hout := cutOut_cutBlocks hfresh hcut
  have hstop : cut.address + cut.instructions.length = a + 1 :=
    (last_address_cutBlocks hfresh hcut).symm.trans (congrArg Nat.succ hlast)
  have htail := hout.getElem?_eq cut.getElem?_tailIndex
  rcases Block.tailIndexOf_cases cut.instructions_ne_nil with
    ⟨hlength, _⟩ | ⟨hlength, branch, slot, hbranchAt, _, hisbranch, hdelay, _⟩
  · -- the last entry is the tail, and a delay slot is none
    change cut.tailIndex + 1 = _ at hlength
    obtain rfl : cut.address + cut.tailIndex = a := by omega
    obtain rfl := Option.some.inj (hinsn.symm.trans htail)
    refine .inl ⟨fun hslot => ?_, rfl⟩
    rw [isBranch_tail_of_slot hfresh hcut hslot] at hbranch
    cases hbranch
  · -- the last entry stands behind the tail, as its delay slot
    change cut.tailIndex + 2 = _ at hlength
    obtain rfl := Option.some.inj (cut.getElem?_tailIndex.symm.trans hbranchAt)
    refine .inr ⟨cut.address + cut.tailIndex, by omega, ?_, htail, hisbranch, hdelay⟩
    -- the tail is no slot itself, since that would end the block
    have hwalked := (walked_discover hfresh _).1 (hout.walked cut.tailIndex cut.tailIndex_lt)
    refine hwalked.resolve_right fun hslot => ?_
    have hend := (hout.last cut.tailIndex cut.tailIndex_lt hslot).2
    omega

/-- Linking keeps what falls through. -/
theorem isUnconditional_tail_linkedBlock (blocks : List Block) (id : BlockId)
    (hnatural : cut.tail.callClass = .natural) :
    (linkedBlock unit routines blocks id cut).tail.isUnconditional =
      cut.tail.isUnconditional := by
  rcases @tail_linkedBlock unit routines cut blocks id hnatural with heq | ⟨_, heq⟩
  · rw [heq]
  · rw [heq, Instruction.isUnconditional_forced hnatural]

/-- The fallthrough successor comes first. -/
theorem head?_successors_linkedBlock {blocks : List Block} {next : BlockId}
    (h : fallthrough blocks.length id cut.tail = [next]) :
    (linkedBlock unit routines blocks id cut).successors.head? = some next := by
  have hlinked := linked_linkedBlock unit routines blocks id cut
  generalize linkedBlock unit routines blocks id cut = block at hlinked ⊢
  cases hlinked with
  | plain => exact congrArg List.head? h
  | forced => exact congrArg List.head? h
  | lost => exact congrArg List.head? h
  | jump =>
    show (addSuccessor _ _).head? = some next
    rw [h]
    exact (members_addSuccessor (some next) _).2.2 next rfl

end Last

/-! ## Going on -/

/-- The entry at `a` may be followed by the next one: it is not taken for a branch that never falls
through, the next entry lies in a block, and a block that ends with the entry falls through to the
block that begins with the next one. -/
structure Graph.GoesOn (graph : Graph) (unit : SourceUnit) (a : Nat) (insn : Instruction) :
    Prop where
  falls : insn.isUnconditional = false
  next : a + 1 < unit.instructions.length →
    ∃ id block, graph.block? id = some block ∧ a + 1 ∈ block.addresses
  edge : a + 1 < unit.instructions.length → ∀ id block, graph.block? id = some block →
    block.last.address = a → block.tail.isUnconditional = false ∧ ∃ next other,
      block.successors.head? = some next ∧ graph.block? next = some other ∧ other.address = a + 1

/-- The entry at `a`, not the last one, is the delay slot of a branch that never falls through. -/
def SourceUnit.SlotOfJump (unit : SourceUnit) (routines : RoutineLabels) (a : Nat) : Prop :=
  ∃ b branch, unit.Reached routines b ∧ unit.instructions[b]? = some branch ∧
    branch.isUnconditional = true ∧ branch.delaySlot = true ∧ a = b + 1 ∧
      a + 1 < unit.instructions.length

section GoesOn

variable {unit : SourceUnit} {routines : RoutineLabels} {a : Nat} {insn : Instruction}

/-- What comes after a walked entry that is no branch can be run, unless the entry is the delay slot
of a branch that never falls through. -/
theorem reached_succ (hwalked : unit.Reached routines a ∨ unit.Slot routines a)
    (hinsn : unit.instructions[a]? = some insn) (hbranch : insn.isBranch = false)
    (hjump : ¬ unit.SlotOfJump routines a) (hlt : a + 1 < unit.instructions.length) :
    unit.Reached routines (a + 1) := by
  rcases hwalked with h | ⟨b, branch, hb, hbranchAt, hisbranch, hdelay, rfl, hslot⟩
  · exact .next h hinsn hbranch hlt
  · have hfalls : branch.isUnconditional = false := Bool.eq_false_iff.mpr fun hnever =>
      hjump ⟨b, branch, hb, hbranchAt, hnever, hdelay, rfl, hlt⟩
    have hafter : unit.afterBranch b branch = b + 1 + 1 := by
      rw [SourceUnit.afterBranch, hdelay, decide_eq_true hslot]
      rfl
    exact hafter ▸ .fall hb hbranchAt hisbranch hfalls (hafter ▸ hlt)

/-- A conditional entry that does not load the program counter goes on: to the next one in its
block, or over the edge to the block behind it. -/
theorem goesOn_linkedGraph (hfresh : unit.Fresh)
    (hwalked : unit.Reached routines a ∨ unit.Slot routines a)
    (hinsn : unit.instructions[a]? = some insn) (hcond : insn.IsConditional)
    (hloads : insn.loadsPc = false) (hjump : ¬ unit.SlotOfJump routines a) :
    (linkedGraph unit routines).GoesOn unit a insn := by
  obtain ⟨hbranch, hfalls⟩ := hcond.isBranch_eq (hfresh.natural a insn hinsn)
  rw [hloads] at hbranch hfalls
  refine ⟨hfalls, fun hlt => ?_, fun hlt id block hblock hlast => ?_⟩
  · have hnext := reached_succ hwalked hinsn hbranch hjump hlt
    obtain ⟨id, cut, hcut, hmem⟩ := (exists_mem_addresses hfresh).2 (.inl hnext)
    refine ⟨id, _, block?_linkedGraph.2 ⟨cut, hcut, rfl⟩, ?_⟩
    rwa [Block.addresses_eq_of_plain (plain_linkedBlock unit routines _ id cut)]
  · -- at the end of a block, the tail falls through to the next one
    have hnext := reached_succ hwalked hinsn hbranch hjump hlt
    obtain ⟨cut, hcut, rfl⟩ := block?_linkedGraph.1 hblock
    have hmem := List.mem_of_getElem? hcut
    rw [Block.last_address_eq_of_plain (plain_linkedBlock unit routines _ id cut)] at hlast
    have hstop : cut.stop = a + 1 :=
      (last_address_cutBlocks hfresh hmem).symm.trans (congrArg Nat.succ hlast)
    have htail : cut.tail.isUnconditional = false := by
      rcases tail_of_last hfresh hmem hlast hinsn hbranch with
        ⟨_, heq⟩ | ⟨b, rfl, hb, hbranchAt, _, hdelay⟩
      · rw [heq]
        exact hfalls
      · exact Bool.eq_false_iff.mpr fun hnever =>
          hjump ⟨b, cut.tail, hb, hbranchAt, hnever, hdelay, rfl, hlt⟩
    obtain ⟨next, hsucc, haddress⟩ := getElem?_succ hfresh hcut (hstop ▸ hnext)
    have hfall : fallthrough (cutBlocks unit routines).length id cut.tail = [id + 1] := by
      rw [fallthrough, htail, if_pos]
      exact decide_eq_true (List.getElem?_eq_some_iff.mp hsucc).1
    refine ⟨?_, id + 1, _, head?_successors_linkedBlock hfall,
      block?_linkedGraph.2 ⟨next, hsucc, rfl⟩, ?_⟩
    · rw [isUnconditional_tail_linkedBlock _ id (natural_tail hfresh hmem)]
      exact htail
    · rw [Block.address_eq_of_plain (plain_linkedBlock unit routines _ (id + 1) next), haddress,
        hstop]

/-- The delay slot of a branch ends the block of the branch, which does not fall through to the next
one if the branch does not. -/
theorem not_slotOfJump_of_goesOn (hfresh : unit.Fresh)
    (hinsn : unit.instructions[a]? = some insn) (hbranch : insn.isBranch = false)
    (h : (linkedGraph unit routines).GoesOn unit a insn) : ¬ unit.SlotOfJump routines a := by
  rintro ⟨b, branch, hb, hbranchAt, hnever, hdelay, rfl, hlt⟩
  have hisbranch : branch.isBranch = true := (Bool.and_eq_true_iff.mp hnever).1
  have hslot : unit.Slot routines (b + 1) :=
    ⟨b, branch, hb, hbranchAt, hisbranch, hdelay, rfl, Nat.lt_of_succ_lt hlt⟩
  obtain ⟨id, cut, hcut, hmem⟩ := (exists_mem_addresses hfresh).2 (.inr hslot)
  have hin := List.mem_of_getElem? hcut
  obtain ⟨hle, hstop⟩ := (mem_addresses_iff hfresh hin).1 hmem
  -- the block of the slot ends with it, so the edge behind is the one of this block
  have hend := ((cutOut_cutBlocks hfresh hin).last (b + 1 - cut.address)
    (by unfold Block.stop at hstop; omega) (by rwa [Nat.add_sub_cancel' hle])).2
  have hlast : cut.last.address = b + 1 := by
    have hsucc := last_address_cutBlocks hfresh hin
    unfold Block.stop at hsucc
    omega
  have hedge := h.edge hlt id _ (block?_linkedGraph.2 ⟨cut, hcut, rfl⟩)
    ((Block.last_address_eq_of_plain (plain_linkedBlock unit routines _ id cut)).trans hlast)
  rw [isUnconditional_tail_linkedBlock _ id (natural_tail hfresh hin)] at hedge
  rcases tail_of_last hfresh hin hlast hinsn hbranch with ⟨hno, _⟩ | ⟨c, hc, _, htail, _⟩
  · exact hno hslot
  · obtain rfl : b = c := by omega
    obtain rfl := Option.some.inj (hbranchAt.symm.trans htail)
    rw [hnever] at hedge
    cases hedge.1

end GoesOn

/-- Control goes on behind a conditional instruction, if and only if that does not load the program
counter together with other registers and is not in the delay slot of a branch that never falls
through. -/
theorem goesOn_iff_of_conditional {unit : SourceUnit} (hfresh : unit.Fresh)
    (routines : RoutineLabels) {a : Nat} {insn : Instruction}
    (hwalked : (discover unit routines).value.walked.contains a = true)
    (hinsn : unit.instructions[a]? = some insn) (hcond : insn.IsConditional) :
    ∃ graph, (unit.graph routines).run.value = .ok graph ∧
      (graph.GoesOn unit a insn ↔
        insn.loadsPc = false ∧ ¬ unit.SlotOfJump routines a) := by
  obtain ⟨hbranch, hfalls⟩ := hcond.isBranch_eq (hfresh.natural a insn hinsn)
  refine ⟨linkedGraph unit routines, value_graph hfresh routines, fun h => ?_, fun h => ?_⟩
  · have hloads : insn.loadsPc = false := hfalls.symm.trans h.falls
    exact ⟨hloads, not_slotOfJump_of_goesOn hfresh hinsn (hbranch.trans hloads) h⟩
  · exact goesOn_linkedGraph hfresh ((walked_discover hfresh a).1 hwalked) hinsn hcond h.1 h.2

/-- A block that ends with a conditional move, before the target of a branch. -/
def conditionalMove : SourceUnit :=
  (SourceUnit.parse "move.s" "f:\n cmp r0, #0\n movne r0, #1\n.L2:\n b .L2\n").value

/-- The block ends with the move because another one begins behind it; the flow goes on all the
same. -/
theorem goesOn_conditionalMove :
    conditionalMove.Fresh ∧ (discover conditionalMove ["f"]).value.walked.contains 2 = true ∧
      ∃ insn, conditionalMove.instructions[2]? = some insn ∧ insn.IsConditional ∧
        ∃ graph, (conditionalMove.graph ["f"]).run.value = .ok graph ∧
          (graph.GoesOn conditionalMove 2 insn ↔
            insn.loadsPc = false ∧ ¬ conditionalMove.SlotOfJump ["f"] 2) := by
  have hfresh : conditionalMove.Fresh := SourceUnit.fresh_parse _ _
  have hwalked : (discover conditionalMove ["f"]).value.walked.contains 2 = true := by decide
  have hinsn : conditionalMove.instructions[2]? =
      some { address := 2, line := 2, operator := "movne", operands := "r0, #1" } := by decide
  have hcond : ({ address := 2, line := 2, operator := "movne", operands := "r0, #1" } :
      Instruction).IsConditional := by decide
  exact ⟨hfresh, hwalked, _, hinsn, hcond,
    goesOn_iff_of_conditional hfresh ["f"] hwalked hinsn hcond⟩

/-- A function that may return before its last instruction. -/
def conditionalReturn : SourceUnit :=
  (SourceUnit.parse "return.s" "f:\n cmp r0, #0\n popne {r4, pc}\n bx lr\n").value

/-- A return under a condition is taken for one without, so that the code behind it is lost. -/
theorem not_goesOn_conditionalReturn :
    conditionalReturn.Fresh ∧ (discover conditionalReturn ["f"]).value.walked.contains 2 = true ∧
      ∃ insn, conditionalReturn.instructions[2]? = some insn ∧ insn.IsConditional ∧
        ∃ graph, (conditionalReturn.graph ["f"]).run.value = .ok graph ∧
          ¬ graph.GoesOn conditionalReturn 2 insn ∧ insn.isUnconditional = true ∧
            ∀ id block, graph.block? id = some block → 3 ∉ block.addresses := by
  have hfresh : conditionalReturn.Fresh := SourceUnit.fresh_parse _ _
  have hnever : ({ address := 2, line := 2, operator := "popne", operands := "\x7br4, pc\x7d" } :
      Instruction).isUnconditional = true := by decide
  have hlost : (discover conditionalReturn ["f"]).value.walked.contains 3 = false := by decide
  refine ⟨hfresh, by decide, _, by decide, by decide, _, value_graph hfresh ["f"], fun h => ?_,
    hnever, fun id block hblock hmem => ?_⟩
  · rw [h.falls] at hnever
    cases hnever
  · obtain ⟨cut, hcut, rfl⟩ := block?_linkedGraph.1 hblock
    rw [Block.addresses_eq_of_plain (plain_linkedBlock _ _ _ id cut)] at hmem
    have hwalked := (walked_discover hfresh 3).2
      ((exists_mem_addresses hfresh).1 ⟨id, cut, hcut, hmem⟩)
    rw [hlost] at hwalked
    cases hwalked

end RamOverlay
