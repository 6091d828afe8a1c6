import RamOverlay.Proofs.Code.UnitGraph

/-!
# Where blocks end and begin

In a unit without branches and labels in delay slots, the tail of a block can be run, and control
that falls through it comes to the beginning of the next block. Places that are jumped to begin
blocks too.
-/

namespace RamOverlay

open Discovery

/-! ## Units with plain delay slots -/

namespace SourceUnit

/-- No label is defined twice. -/
def UniqueLabels (unit : SourceUnit) : Prop :=
  unit.instructions.Pairwise fun insn insn' =>
    insn.isLabel = true → insn'.isLabel = true → insn.label? ≠ insn'.label?

/-- The entry after a delayed branch is neither a label nor a branch. -/
def PlainSlots (unit : SourceUnit) : Prop :=
  unit.instructions.IsChain fun branch slot =>
    branch.isBranch = true → branch.delaySlot = true → slot.isLabel = false ∧ slot.isBranch = false

instance (unit : SourceUnit) : Decidable unit.UniqueLabels :=
  inferInstanceAs (Decidable (List.Pairwise _ _))

instance (unit : SourceUnit) : Decidable unit.PlainSlots :=
  inferInstanceAs (Decidable (List.IsChain _ _))

variable {unit : SourceUnit} {routines : RoutineLabels} {a : Nat} {label : String}

/-- A label that is defined once stands at one entry. -/
theorem UniqueLabels.eq_of_definesLabel (hunique : unit.UniqueLabels) {b : Nat}
    {insn insn' : Instruction} (hinsn : unit.instructions[a]? = some insn)
    (hinsn' : unit.instructions[b]? = some insn') (hdefines : insn.definesLabel label = true)
    (hdefines' : insn'.definesLabel label = true) : a = b := by
  obtain ⟨ha, rfl⟩ := List.getElem?_eq_some_iff.mp hinsn
  obtain ⟨hb, rfl⟩ := List.getElem?_eq_some_iff.mp hinsn'
  obtain ⟨hlabel, hname⟩ := Bool.and_eq_true_iff.mp hdefines
  obtain ⟨hlabel', hname'⟩ := Bool.and_eq_true_iff.mp hdefines'
  have hsame := (beq_iff_eq.mp hname).trans (beq_iff_eq.mp hname').symm
  have hpairwise := List.pairwise_iff_getElem.mp hunique
  rcases Nat.lt_trichotomy a b with hlt | heq | hgt
  · exact absurd hsame (hpairwise a b ha hb hlt hlabel hlabel')
  · exact heq
  · exact absurd hsame.symm (hpairwise b a hb ha hgt hlabel' hlabel)

theorem exists_addressOf? {insn : Instruction} (hinsn : unit.instructions[a]? = some insn)
    (hdefines : insn.definesLabel label = true) : ∃ b, unit.addressOf? label = some b := by
  cases haddress : unit.addressOf? label with
  | none =>
    unfold SourceUnit.addressOf? at haddress
    rw [Option.map_eq_none_iff, List.getLast?_eq_none_iff, List.filter_eq_nil_iff] at haddress
    exact absurd hdefines (haddress insn (List.mem_of_getElem? hinsn))
  | some b => exact ⟨b, rfl⟩

/-- A label that is defined once is found where it is defined. -/
theorem UniqueLabels.addressOf? (hunique : unit.UniqueLabels) (hfresh : unit.Fresh)
    {insn : Instruction} (hinsn : unit.instructions[a]? = some insn)
    (hdefines : insn.definesLabel label = true) : unit.addressOf? label = some a := by
  obtain ⟨b, haddress⟩ := exists_addressOf? hinsn hdefines
  obtain ⟨other, hother, hother'⟩ := hfresh.getElem?_addressOf? haddress
  rw [haddress, hunique.eq_of_definesLabel hother hinsn hother' hdefines]

/-- A slot of a unit with plain slots is neither a label nor a branch. -/
theorem PlainSlots.slot (hplain : unit.PlainSlots) {branch slot : Instruction}
    (hbranch : unit.instructions[a]? = some branch) (hisbranch : branch.isBranch = true)
    (hdelay : branch.delaySlot = true) (hslot : unit.instructions[a + 1]? = some slot) :
    slot.isLabel = false ∧ slot.isBranch = false := by
  obtain ⟨ha, rfl⟩ := List.getElem?_eq_some_iff.mp hbranch
  obtain ⟨hlt, rfl⟩ := List.getElem?_eq_some_iff.mp hslot
  exact List.IsChain.getElem hplain a hlt hisbranch hdelay

/-- Parsing marks no delay slot. -/
theorem delaySlot_of_mem_entriesFrom {line address : Nat} {lines : List (List Char)}
    {insn : Instruction} (h : insn ∈ entriesFrom line address lines) : insn.delaySlot = false := by
  induction lines generalizing line address with
  | nil => cases h
  | cons cs lines ih =>
    rw [entriesFrom] at h
    cases hentry : entry? line address cs with
    | none =>
      simp only [hentry] at h
      exact ih h
    | some first =>
      simp only [hentry] at h
      rcases List.mem_cons.mp h with rfl | h
      · -- every kind of entry is made without the mark
        unfold entry? at hentry
        split at hentry <;> cases hentry <;> rfl
      · exact ih h

/-- The parser knows of no delay slots. -/
theorem plainSlots_parse (name text : String) : (parse name text).value.PlainSlots := by
  refine List.isChain_iff_getElem.mpr fun i hi _ hdelay => ?_
  have hnone := delaySlot_of_mem_entriesFrom (List.getElem_mem (Nat.lt_of_succ_lt hi))
  exact absurd (hnone.symm.trans hdelay) Bool.false_ne_true

/-- Control does not come to a plain delay slot but from its branch. -/
theorem PlainSlots.not_reached (hplain : unit.PlainSlots) (hfresh : unit.Fresh)
    (hslot : unit.Slot routines a) : ¬ unit.Reached routines a := by
  intro h
  rcases hslot.reached_cases h with ⟨label, haddress⟩ | ⟨_, slot, _, hbefore, _, hget, hbranch⟩
  · -- a slot is no label
    obtain ⟨b, branch, _, hbranch, hisbranch, hdelay, rfl, _⟩ := hslot
    obtain ⟨insn, hinsn, hdefines⟩ := hfresh.getElem?_addressOf? haddress
    have hno := (hplain.slot hbranch hisbranch hdelay hinsn).1
    rw [Instruction.definesLabel, hno] at hdefines
    exact Bool.false_ne_true hdefines
  · -- a slot is no branch either
    obtain ⟨c, other, _, hother, hother', hdelay, rfl, _⟩ := hbefore
    exact Bool.false_ne_true ((hplain.slot hother hother' hdelay hget).2.symm.trans hbranch)

end SourceUnit

/-! ## Tails -/

/-- The tail is the last entry, unless that is a plain entry after a delayed branch. -/
theorem Block.tailIndexOf_cases {insns : List Instruction} (h : insns ≠ []) :
    (tailIndexOf insns + 1 = insns.length ∧
      ∀ (i : Nat) (branch slot : Instruction), i + 2 = insns.length → insns[i]? = some branch →
        insns[i + 1]? = some slot → branch.isBranch = true → branch.delaySlot = true →
          slot.isBranch = true) ∨
    (tailIndexOf insns + 2 = insns.length ∧ ∃ branch slot,
      insns[tailIndexOf insns]? = some branch ∧ insns[tailIndexOf insns + 1]? = some slot ∧
        branch.isBranch = true ∧ branch.delaySlot = true ∧ slot.isBranch = false) := by
  fun_induction tailIndexOf insns with
  | case1 => exact absurd rfl h
  | case2 => exact .inl ⟨rfl, fun i _ _ hi => absurd hi (by simp)⟩
  | case3 branch slot hslot =>
    simp only [Bool.and_eq_true, Bool.not_eq_true'] at hslot
    exact .inr ⟨rfl, branch, slot, rfl, rfl, hslot.1.2, hslot.2, hslot.1.1⟩
  -- two entries, and the second is no plain slot of the first
  | case4 branch slot hslot =>
    refine .inl ⟨rfl, fun i branch' slot' hi hbranch hslot' hisbranch hdelay => ?_⟩
    obtain rfl : i = 0 := by simpa using hi
    obtain rfl : branch = branch' := Option.some.inj hbranch
    obtain rfl : slot = slot' := Option.some.inj hslot'
    simpa [hisbranch, hdelay] using hslot
  | case5 insn rest hone htwo ih =>
    rcases ih hone with ⟨hlength, hall⟩ | ⟨hlength, branch, slot, hbranch, hslot, hcond⟩
    · refine .inl ⟨congrArg Nat.succ hlength, fun i branch slot hi hbranch hslot => ?_⟩
      cases i with
      | zero =>
        -- then the list would have two entries, which the other cases are for
        obtain ⟨only, honly⟩ := List.length_eq_one_iff.mp (Nat.succ.inj hi).symm
        exact absurd honly (htwo only)
      | succ i => exact hall i branch slot (Nat.succ.inj hi) hbranch hslot
    · exact .inr ⟨congrArg Nat.succ hlength, branch, slot, hbranch, hslot, hcond⟩

/-! ## The end of a block -/

section Cut

variable {unit : SourceUnit} {routines : RoutineLabels} {block : Block} {id : BlockId} {a : Nat}

/-- The address behind the last entry. -/
def Block.stop (block : Block) : Nat := block.address + block.instructions.length

theorem mem_addresses_iff (hfresh : unit.Fresh) (hblock : block ∈ cutBlocks unit routines) :
    a ∈ block.addresses ↔ block.address ≤ a ∧ a < block.stop := by
  rw [(cutOut_cutBlocks hfresh hblock).addresses_eq hfresh.address, List.mem_range'_1]
  rfl

/-- The scan does not end a block between a branch and its delay slot. -/
theorem not_slot_stop (hfresh : unit.Fresh) (hblock : block ∈ cutBlocks unit routines) :
    ¬ unit.Slot routines block.stop := by
  intro hslot
  obtain ⟨id', other, hother, hmem⟩ := (exists_mem_addresses hfresh).2 (.inr hslot)
  obtain ⟨id, hid⟩ := List.mem_iff_getElem?.mp hblock
  have hmem' := List.mem_of_getElem? hother
  obtain ⟨hle, hlt⟩ := (mem_addresses_iff hfresh hmem').1 hmem
  have hpos := block.length_pos
  have hstop : block.stop = block.address + block.instructions.length := rfl
  have hstop' : other.stop = other.address + other.instructions.length := rfl
  -- the slot is not the first entry of its block, so that its branch is in that block too
  have hlast := (cutOut_cutBlocks hfresh hmem').last (block.stop - other.address) (by omega)
    (by rwa [Nat.add_sub_cancel' hle])
  have hbranch : block.stop - 1 ∈ block.addresses :=
    (mem_addresses_iff hfresh hblock).2 ⟨by omega, by omega⟩
  have hbranch' : block.stop - 1 ∈ other.addresses :=
    (mem_addresses_iff hfresh hmem').2 ⟨by omega, by omega⟩
  obtain rfl : id = id' := eq_of_mem_addresses hfresh hid hother hbranch hbranch'
  obtain rfl : block = other := Option.some.inj (hid.symm.trans hother)
  exact absurd hlt (Nat.lt_irrefl _)

/-- A delay slot is the tail of its block only if it is a branch. -/
theorem isBranch_tail_of_slot (hfresh : unit.Fresh) (hblock : block ∈ cutBlocks unit routines)
    (hslot : unit.Slot routines (block.address + block.tailIndex)) :
    block.tail.isBranch = true := by
  have hout := cutOut_cutBlocks hfresh hblock
  obtain ⟨hpos, hlast⟩ := hout.last block.tailIndex block.tailIndex_lt hslot
  rcases Block.tailIndexOf_cases block.instructions_ne_nil with ⟨_, hall⟩ | ⟨hlength, _⟩
  · -- its branch is the entry before, which otherwise would be the tail
    obtain ⟨b, branch, _, hbranch, hisbranch, hdelay, hb, _⟩ := hslot
    obtain ⟨i, hi⟩ := Nat.exists_eq_succ_of_ne_zero (Nat.ne_of_gt hpos)
    obtain rfl : b = block.address + i := by omega
    have hbranch' : block.instructions[i]? = some branch :=
      (hout.getElem?_of_lt (by omega)).trans hbranch
    have htail := block.getElem?_tailIndex
    rw [hi] at htail
    exact hall i branch block.tail (by omega) hbranch' htail hisbranch hdelay
  · change block.tailIndex + 2 = _ at hlength
    omega

/-- The tail of a block is no delay slot, as delay slots are plain entries. -/
theorem not_slot_tail (hfresh : unit.Fresh) (hplain : unit.PlainSlots)
    (hblock : block ∈ cutBlocks unit routines) :
    ¬ unit.Slot routines (block.address + block.tailIndex) := by
  intro hslot
  have hno := isBranch_tail_of_slot hfresh hblock hslot
  have hget := (cutOut_cutBlocks hfresh hblock).getElem?_eq block.getElem?_tailIndex
  obtain ⟨b, branch, _, hbranch, hisbranch, hdelay, hb, _⟩ := hslot
  rw [hb] at hget
  rw [(hplain.slot hbranch hisbranch hdelay hget).2] at hno
  exact Bool.false_ne_true hno

/-- The tail of a block can be run, and the block ends where control falls through it. -/
theorem tail_cutBlocks (hfresh : unit.Fresh) (hplain : unit.PlainSlots)
    (hblock : block ∈ cutBlocks unit routines) :
    unit.Reached routines block.tail.address ∧
      unit.instructions[block.tail.address]? = some block.tail ∧
      block.stop = if block.tail.isBranch then unit.afterBranch block.tail.address block.tail
        else block.tail.address + 1 := by
  have hout := cutOut_cutBlocks hfresh hblock
  have hget := hout.getElem?_eq block.getElem?_tailIndex
  have hwalked := (walked_discover hfresh _).1 (hout.walked block.tailIndex block.tailIndex_lt)
  have hreached := hwalked.resolve_right (not_slot_tail hfresh hplain hblock)
  rw [hfresh.address _ _ hget]
  refine ⟨hreached, hget, ?_⟩
  rcases Block.tailIndexOf_cases block.instructions_ne_nil with
    ⟨hlength, _⟩ | ⟨hlength, branch, slot, hbranch, hslot, hisbranch, hdelay, _⟩
  · -- the tail is the last entry: it is no branch with a delay slot, or the slot would be next
    change block.tailIndex + 1 = _ at hlength
    have hstop : block.stop = block.address + block.tailIndex + 1 := by
      rw [Block.stop, ← hlength, Nat.add_assoc]
    split
    next hisbranch =>
      rw [SourceUnit.afterBranch, if_neg, Nat.add_zero, hstop]
      intro hslot
      obtain ⟨hdelay, hlt⟩ := Bool.and_eq_true_iff.mp hslot
      refine not_slot_stop hfresh hblock ?_
      rw [hstop]
      exact ⟨_, block.tail, hreached, hget, hisbranch, hdelay, rfl, of_decide_eq_true hlt⟩
    next => exact hstop
  · -- the tail is a branch, and its delay slot is the last entry
    change block.tailIndex + 2 = _ at hlength
    obtain rfl : block.tail = branch :=
      Option.some.inj (block.getElem?_tailIndex.symm.trans hbranch)
    have hnext := (List.getElem?_eq_some_iff.mp (hout.getElem?_eq hslot)).1
    rw [if_pos hisbranch, SourceUnit.afterBranch, if_pos, Block.stop, ← hlength]
    · rfl
    · rw [hdelay, Bool.true_and]
      exact decide_eq_true hnext

/-- A block that ends with a call stops right behind it. -/
theorem stop_of_isCall (hfresh : unit.Fresh) (hplain : unit.PlainSlots)
    (hblock : block ∈ cutBlocks unit routines) (hcall : block.tail.isCall = true) :
    block.stop = block.tail.address + 1 := by
  have hbranch := Instruction.isBranch_of_isCall hcall (natural_tail hfresh hblock)
  rw [(tail_cutBlocks hfresh hplain hblock).2.2, hbranch, if_neg Bool.false_ne_true]

/-! ## The beginning of a block -/

theorem first_cutBlocks (hfresh : unit.Fresh) (hblock : block ∈ cutBlocks unit routines) :
    unit.instructions[block.address]? = some block.first :=
  (cutOut_cutBlocks hfresh hblock).getElem?_eq (show block.instructions[0]? = _ from rfl)

/-- A later block has none of its entries before the end of an earlier one. -/
theorem stop_le_of_lt (hfresh : unit.Fresh) {id' : BlockId} {other : Block}
    (hblock : (cutBlocks unit routines)[id]? = some block)
    (hother : (cutBlocks unit routines)[id']? = some other) (hlt : id < id') :
    ∀ b ∈ other.addresses, block.stop ≤ b := by
  intro b hb
  have hpos := block.length_pos
  have hstop : block.stop = block.address + block.instructions.length := rfl
  have hlast : block.stop - 1 ∈ block.addresses :=
    (mem_addresses_iff hfresh (List.mem_of_getElem? hblock)).2 ⟨by omega, by omega⟩
  have := lt_of_mem_addresses hfresh hblock hother hlt _ hlast b hb
  omega

/-- There is an entry behind each block but the last one. -/
theorem stop_lt_of_getElem?_succ (hfresh : unit.Fresh) {next : Block}
    (hblock : (cutBlocks unit routines)[id]? = some block)
    (hnext : (cutBlocks unit routines)[id + 1]? = some next) :
    block.stop < unit.instructions.length := by
  have hle := stop_le_of_lt hfresh hblock hnext (Nat.lt_succ_self id) next.address
    List.mem_cons_self
  have hfirst := first_cutBlocks hfresh (List.mem_of_getElem? hnext)
  exact Nat.lt_of_le_of_lt hle (List.getElem?_eq_some_iff.mp hfirst).1

/-- What comes right after a block begins the next block. -/
theorem getElem?_succ (hfresh : unit.Fresh) (hblock : (cutBlocks unit routines)[id]? = some block)
    (hreached : unit.Reached routines block.stop) :
    ∃ next, (cutBlocks unit routines)[id + 1]? = some next ∧ next.address = block.stop := by
  obtain ⟨id', other, hother, hmem⟩ := (exists_mem_addresses hfresh).2 (.inl hreached)
  have hlt : id < id' := by
    rcases Nat.lt_trichotomy id id' with hlt | rfl | hgt
    · exact hlt
    · obtain rfl : block = other := Option.some.inj (hblock.symm.trans hother)
      exact absurd ((mem_addresses_iff hfresh (List.mem_of_getElem? hother)).1 hmem).2
        (Nat.lt_irrefl _)
    · have hle := stop_le_of_lt hfresh hother hblock hgt block.address List.mem_cons_self
      have hmem := ((mem_addresses_iff hfresh (List.mem_of_getElem? hother)).1 hmem).2
      exact absurd hmem (Nat.not_lt.mpr (Nat.le_trans hle (Nat.le_add_right _ _)))
  -- the block behind begins at `stop` or later, and no later than the block of `stop`
  obtain ⟨next, hnext⟩ : ∃ next, (cutBlocks unit routines)[id + 1]? = some next :=
    ⟨_, List.getElem?_eq_getElem (Nat.lt_of_le_of_lt hlt (List.getElem?_eq_some_iff.mp hother).1)⟩
  have hfirst : next.address ∈ next.addresses := List.mem_cons_self
  have hge := stop_le_of_lt hfresh hblock hnext (Nat.lt_succ_self id) _ hfirst
  refine ⟨next, hnext, Nat.le_antisymm ?_ hge⟩
  rcases Nat.lt_or_eq_of_le hlt with hlt | heq
  · exact Nat.le_of_lt (lt_of_mem_addresses hfresh hnext hother hlt _ hfirst _ hmem)
  · rw [← heq] at hother
    obtain rfl : next = other := Option.some.inj (hnext.symm.trans hother)
    exact ((mem_addresses_iff hfresh (List.mem_of_getElem? hother)).1 hmem).1

/-- Control falls through a tail to the next block, unless the unit ends before. -/
theorem fallthrough_cutBlocks (hfresh : unit.Fresh) (hplain : unit.PlainSlots)
    (hblock : (cutBlocks unit routines)[id]? = some block) :
    (fallthrough (cutBlocks unit routines).length id block.tail = [id + 1] ∧
      block.tail.isUnconditional = false ∧ block.stop < unit.instructions.length ∧
        ∃ next, (cutBlocks unit routines)[id + 1]? = some next ∧ next.address = block.stop) ∨
    (fallthrough (cutBlocks unit routines).length id block.tail = [] ∧
      ¬ (block.tail.isUnconditional = false ∧ block.stop < unit.instructions.length)) := by
  obtain ⟨hreached, hget, hstop⟩ := tail_cutBlocks hfresh hplain (List.mem_of_getElem? hblock)
  by_cases hfalls : block.tail.isUnconditional = false ∧ block.stop < unit.instructions.length
  · obtain ⟨hfalls, hlt⟩ := hfalls
    -- flow comes to the place behind the block, so a block begins there
    have hnext : unit.Reached routines block.stop := by
      split at hstop
      next hbranch =>
        rw [hstop] at hlt ⊢
        exact .fall hreached hget hbranch hfalls hlt
      next hbranch =>
        rw [hstop] at hlt ⊢
        exact .next hreached hget (Bool.eq_false_iff.mpr hbranch) hlt
    obtain ⟨next, hsucc, haddress⟩ := getElem?_succ hfresh hblock hnext
    refine .inl ⟨?_, hfalls, hlt, next, hsucc, haddress⟩
    rw [fallthrough, hfalls, if_pos]
    exact decide_eq_true (List.getElem?_eq_some_iff.mp hsucc).1
  · refine .inr ⟨?_, hfalls⟩
    rw [fallthrough, if_neg]
    intro hcond
    obtain ⟨hcond, hlt⟩ := Bool.and_eq_true_iff.mp hcond
    refine hfalls ⟨by simpa using hcond, ?_⟩
    exact stop_lt_of_getElem?_succ hfresh hblock
      (List.getElem?_eq_getElem (of_decide_eq_true hlt))

/-- A label that is asked for begins a block. -/
theorem blockAt?_of_asked (hfresh : unit.Fresh) (hplain : unit.PlainSlots) {label : String}
    (haddress : unit.addressOf? label = some a) (hreached : unit.Reached routines a)
    (hasked : (discover unit routines).value.Asked a) :
    ∃ id block, blockAt? (cutBlocks unit routines) a = some id ∧
      (cutBlocks unit routines)[id]? = some block ∧ block.address = a ∧
        block.first.definesLabel label = true := by
  have hlt := hreached.lt hfresh
  have htaken := (discover_marked hfresh routines).2.1 a hasked
  obtain ⟨_, hcut⟩ := processed_of_taken hfresh hlt htaken
  have hbegins : ∀ block ∈ cutBlocks unit routines, a ∈ block.addresses → block.address = a := by
    intro block hblock hmem
    obtain ⟨hle, hstop⟩ := (mem_addresses_iff hfresh hblock).1 hmem
    -- inside a block only a delay slot could be asked for
    by_contra hne
    refine hplain.not_reached hfresh ?_ hreached
    have hbefore := (cutOut_cutBlocks hfresh hblock).before (a - block.address) (by omega)
      (by unfold Block.stop at hstop; omega)
    rw [Nat.add_sub_cancel' hle] at hbefore
    exact hbefore hcut
  obtain ⟨_, block, hblock, hmem⟩ := (exists_mem_addresses hfresh).2 (.inl hreached)
  have hblock := List.mem_of_getElem? hblock
  cases hfind : blockAt? (cutBlocks unit routines) a with
  | none =>
    have hnone := List.findIdx?_eq_none_iff.mp hfind block hblock
    simp [hbegins block hblock hmem] at hnone
  | some id =>
    obtain ⟨hid, hfound, _⟩ := List.findIdx?_eq_some_iff_getElem.mp hfind
    have hfirst := first_cutBlocks hfresh (List.getElem_mem hid)
    have hfound : (cutBlocks unit routines)[id].address = a := by simpa using hfound
    obtain ⟨insn, hinsn, hdefines⟩ := hfresh.getElem?_addressOf? haddress
    rw [hfound] at hfirst
    obtain rfl := Option.some.inj (hfirst.symm.trans hinsn)
    exact ⟨id, _, rfl, List.getElem?_eq_getElem hid, hfound, hdefines⟩

/-- The local target of a branch at the end of a block begins a block. -/
theorem blockAt?_of_jump (hfresh : unit.Fresh) (hplain : unit.PlainSlots)
    (hblock : block ∈ cutBlocks unit routines) (hbranch : block.tail.isBranch = true)
    {label : String} (hlabel : block.tail.destination.label? = some label)
    (hlocal : label ∉ routines) (haddress : unit.addressOf? label = some a) :
    ∃ id block, blockAt? (cutBlocks unit routines) a = some id ∧
      (cutBlocks unit routines)[id]? = some block ∧ block.address = a ∧
        block.first.definesLabel label = true := by
  obtain ⟨hreached, hget, _⟩ := tail_cutBlocks hfresh hplain hblock
  have hfollowed := followed_of_reached hfresh hreached hget
  exact blockAt?_of_asked hfresh hplain haddress
    (.jump hreached hget hbranch hlabel hlocal haddress)
    (hfollowed.jump hbranch label a hlabel hlocal haddress)

/-- The target of a call at the end of a block begins a block. -/
theorem blockAt?_of_call (hfresh : unit.Fresh) (hplain : unit.PlainSlots)
    (hblock : block ∈ cutBlocks unit routines) (hcall : block.tail.isCall = true)
    {label : String} (hlabel : block.tail.destination.label? = some label)
    (haddress : unit.addressOf? label = some a) :
    ∃ id block, blockAt? (cutBlocks unit routines) a = some id ∧
      (cutBlocks unit routines)[id]? = some block ∧ block.address = a ∧
        block.first.definesLabel label = true := by
  obtain ⟨hreached, hget, _⟩ := tail_cutBlocks hfresh hplain hblock
  have hfollowed := followed_of_reached hfresh hreached hget
  exact blockAt?_of_asked hfresh hplain haddress (.call hreached hget hcall hlabel haddress)
    (hfollowed.call hcall label a hlabel haddress).1

end Cut

end RamOverlay
