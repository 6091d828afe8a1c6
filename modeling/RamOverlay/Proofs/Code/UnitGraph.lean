import RamOverlay.Proofs.Code.Linked
import RamOverlay.Proofs.Code.Marks

/-!
# The graph of a unit tiles its code

* **`cutBlocks`, `linkedGraph`**: the blocks of a unit before and after they are linked.
* **`value_graph`**: building the graph of a fresh unit always comes to an end with `linkedGraph`.
* **`graph_tiles`**: its blocks are runs of consecutive entries, in the order of the unit, and hold
  the code that can be run and its delay slots, each entry once.
-/

namespace RamOverlay

open Discovery

/-- The blocks of a unit, not linked yet. -/
def cutBlocks (unit : SourceUnit) (routines : RoutineLabels) : List Block :=
  formBlocks (discover unit routines).value unit.instructions

/-- The graph of a unit. -/
def linkedGraph (unit : SourceUnit) (routines : RoutineLabels) : Graph :=
  Graph.ofBlocks unit.name <| (cutBlocks unit routines).mapIdx fun id block =>
    linkedBlock unit routines (cutBlocks unit routines) id block

/-! ## A block and the entries of its unit -/

namespace Discovery.CutOut

variable {entries : List Instruction} {walk : Walk} {slot : Nat → Prop} {block : Block}

theorem getElem?_eq (h : CutOut entries walk slot block) {i : Nat} {insn : Instruction}
    (hinsn : block.instructions[i]? = some insn) : entries[block.address + i]? = some insn := by
  obtain ⟨more, hmore⟩ := h.run
  rw [← List.getElem?_drop, ← hmore]
  rw [List.getElem?_append_left (List.getElem?_eq_some_iff.mp hinsn).1]
  exact hinsn

theorem getElem?_of_lt (h : CutOut entries walk slot block) {i : Nat}
    (hi : i < block.instructions.length) :
    block.instructions[i]? = entries[block.address + i]? := by
  rw [List.getElem?_eq_getElem hi]
  exact (h.getElem?_eq (List.getElem?_eq_getElem hi)).symm

/-- The addresses in a block are consecutive. -/
theorem addresses_eq (h : CutOut entries walk slot block)
    (haddress : ∀ a (insn : Instruction), entries[a]? = some insn → insn.address = a) :
    block.addresses = List.range' block.address block.instructions.length := by
  refine List.ext_getElem? fun i => ?_
  rw [Block.addresses, List.getElem?_map]
  cases hinsn : block.instructions[i]? with
  | none =>
    have hle := List.getElem?_eq_none_iff.mp hinsn
    rw [Option.map_none, List.getElem?_eq_none (by simpa using hle)]
  | some insn =>
    have hlt := (List.getElem?_eq_some_iff.mp hinsn).1
    rw [Option.map_some, haddress _ insn (h.getElem?_eq hinsn),
      List.getElem?_range' hlt, Nat.one_mul]

end Discovery.CutOut

/-! ## The blocks before they are linked -/

section Cut

variable {unit : SourceUnit} {routines : RoutineLabels} {block : Block}
variable (hfresh : unit.Fresh)
include hfresh

/-- The scan takes exactly the delay slots of the code into the blocks of their branches. -/
theorem slots_discover :
    Slots unit.instructions (discover unit routines).value (unit.Slot routines) where
  zero := by
    rintro ⟨b, _, _, _, _, _, hb, _⟩
    exact absurd hb.symm (Nat.succ_ne_zero b)
  succ a := by
    constructor
    · rintro ⟨b, insn, hb, hinsn, hbranch, hdelay, hab, hlt⟩
      obtain rfl : a = b := Nat.succ.inj hab
      refine ⟨hlt, (walked_discover hfresh a).2 (.inl hb), fun hslot => ?_, insn, hinsn, hbranch,
        hdelay⟩
      -- a slot is no branch, so it has no slot of its own
      have hno := SourceUnit.isBranch_of_slot_of_reached hfresh hslot hb hinsn
      simp [hbranch] at hno
    · rintro ⟨hlt, hwalked, hslot, insn, hinsn, hbranch, hdelay⟩
      have hreached := ((walked_discover hfresh a).1 hwalked).resolve_right hslot
      exact ⟨a, insn, hreached, hinsn, hbranch, hdelay, rfl, hlt⟩
  walked a ha := (walked_discover hfresh a).2 (.inr ha)

theorem cutOut_cutBlocks (hblock : block ∈ cutBlocks unit routines) :
    CutOut unit.instructions (discover unit routines).value (unit.Slot routines) block :=
  cutOut_of_formed (slots_discover hfresh) hfresh.address (formed_formFrom _ 0 none _)
    List.drop_zero (slots_discover hfresh).zero (by simp) block hblock

/-- The blocks hold the walked entries, in order and each once. -/
theorem addresses_cutBlocks :
    (cutBlocks unit routines).flatMap Block.addresses =
      (List.range unit.instructions.length).filter
        (discover unit routines).value.walked.contains := by
  have h := addresses_of_formed (slots_discover hfresh) hfresh.address
    (formed_formFrom (discover unit routines).value 0 none unit.instructions) List.drop_zero
    (slots_discover hfresh).zero
  rw [Option.toList_none, List.flatMap_nil, List.nil_append, ← List.range_eq_range'] at h
  exact h

/-- The entries of an earlier block stand before those of a later one. -/
theorem lt_of_mem_addresses {id id' : BlockId} {block' : Block}
    (hblock : (cutBlocks unit routines)[id]? = some block)
    (hblock' : (cutBlocks unit routines)[id']? = some block') (hlt : id < id') :
    ∀ a ∈ block.addresses, ∀ b ∈ block'.addresses, a < b := by
  have hpairwise : ((cutBlocks unit routines).flatMap Block.addresses).Pairwise (· < ·) := by
    rw [addresses_cutBlocks hfresh]
    exact List.pairwise_lt_range.filter _
  obtain ⟨hid, rfl⟩ := List.getElem?_eq_some_iff.mp hblock
  obtain ⟨hid', rfl⟩ := List.getElem?_eq_some_iff.mp hblock'
  exact List.pairwise_iff_getElem.mp (List.pairwise_flatMap.mp hpairwise).2 id id' hid hid' hlt

/-- An entry lies in one block. -/
theorem eq_of_mem_addresses {id id' : BlockId} {block' : Block}
    (hblock : (cutBlocks unit routines)[id]? = some block)
    (hblock' : (cutBlocks unit routines)[id']? = some block') {a : Nat}
    (ha : a ∈ block.addresses) (ha' : a ∈ block'.addresses) : id = id' := by
  rcases Nat.lt_trichotomy id id' with hlt | heq | hgt
  · exact absurd (lt_of_mem_addresses hfresh hblock hblock' hlt a ha a ha') (Nat.lt_irrefl a)
  · exact heq
  · exact absurd (lt_of_mem_addresses hfresh hblock' hblock hgt a ha' a ha) (Nat.lt_irrefl a)

/-- An entry lies in a block if it is walked. -/
theorem exists_mem_addresses {a : Nat} :
    (∃ (id : BlockId) (block : Block),
      (cutBlocks unit routines)[id]? = some block ∧ a ∈ block.addresses) ↔
      unit.Reached routines a ∨ unit.Slot routines a := by
  rw [← walked_discover hfresh]
  -- the blocks have the walked entries, and these are entries of the unit
  have hmem : a ∈ (cutBlocks unit routines).flatMap Block.addresses ↔
      (discover unit routines).value.walked.contains a = true := by
    rw [addresses_cutBlocks hfresh, List.mem_filter, List.mem_range, and_iff_right_iff_imp]
    intro hwalked
    have hlt := AddressSet.lt_bound_of_contains hwalked
    rwa [(discover_marked hfresh routines).1.boundWalked] at hlt
  rw [← hmem, List.mem_flatMap]
  constructor
  · rintro ⟨id, block, hblock, ha⟩
    exact ⟨block, List.mem_of_getElem? hblock, ha⟩
  · rintro ⟨block, hblock, ha⟩
    obtain ⟨id, hid⟩ := List.mem_iff_getElem?.mp hblock
    exact ⟨id, block, hid, ha⟩

theorem natural_tail (hblock : block ∈ cutBlocks unit routines) :
    block.tail.callClass = .natural := by
  have hmem := (cutOut_cutBlocks hfresh hblock).getElem?_eq block.getElem?_tailIndex
  exact hfresh.natural _ _ hmem

/-- The graph of a unit that was just parsed is the linked one; there is no error. -/
theorem value_graph (routines : RoutineLabels) :
    (unit.graph routines).run.value = .ok (linkedGraph unit routines) := by
  have hnatural : ∀ block ∈ cutBlocks unit routines, block.tail.callClass = .natural :=
    fun _ hblock => natural_tail hfresh hblock
  have hlink := value_linkFrom unit routines (cutBlocks unit routines) 0 hnatural
  simp only [Nat.zero_add] at hlink
  unfold SourceUnit.graph
  rw [Attempt.value_bind_of_ok _ (Attempt.value_monadLift _)]
  show (linkFrom unit routines (cutBlocks unit routines) 0 (cutBlocks unit routines) >>=
    _).run.value = _
  rw [Attempt.value_bind_of_ok _ hlink]
  rfl

end Cut

/-! ## The linked blocks -/

theorem block?_ofBlocks (unit : String) (blocks : List Block) (id : BlockId) :
    (Graph.ofBlocks unit blocks).block? id = blocks[id]? := by
  simp only [Graph.block?, Graph.ofBlocks, List.getElem?_toArray, List.getElem?_map,
    Option.map_map]
  exact Option.map_id_apply

theorem block?_linkedGraph {unit : SourceUnit} {routines : RoutineLabels} {id : BlockId}
    {block : Block} : (linkedGraph unit routines).block? id = some block ↔
      ∃ cut, (cutBlocks unit routines)[id]? = some cut ∧
        block = linkedBlock unit routines (cutBlocks unit routines) id cut := by
  rw [linkedGraph, block?_ofBlocks, List.getElem?_mapIdx, Option.map_eq_some_iff]
  simp only [eq_comm]

/-- The blocks of a graph are runs of consecutive entries of a unit, in the order of the unit, and
hold the entries of `code`, each once. An entry may have been reclassified. -/
structure Graph.Tiles (graph : Graph) (unit : SourceUnit) (code : Nat → Prop) : Prop where
  covers : ∀ a, code a ↔ ∃ id block, graph.block? id = some block ∧ a ∈ block.addresses
  once : ∀ (a : Nat) (id id' : BlockId) (block block' : Block), graph.block? id = some block →
    graph.block? id' = some block' → a ∈ block.addresses → a ∈ block'.addresses → id = id'
  entries : ∀ (id : BlockId) (block : Block), graph.block? id = some block →
    ∀ insn ∈ block.instructions,
      unit.instructions[insn.address]? = some insn.plain
  run : ∀ (id : BlockId) (block : Block), graph.block? id = some block →
    block.addresses = List.range' block.address block.instructions.length ∧
      0 < block.instructions.length
  ascending : ∀ (id id' : BlockId) (block block' : Block), graph.block? id = some block →
    graph.block? id' = some block' → id < id' → block.address < block'.address

/-- The entries of a block are those of the unit, but for the class of the tail. -/
theorem getElem?_of_mem_instructions {unit : SourceUnit} {routines : RoutineLabels}
    (hfresh : unit.Fresh) {cut block : Block} (hcut : cut ∈ cutBlocks unit routines)
    (hplain : block.plain = cut.plain) {insn : Instruction} (hinsn : insn ∈ block.instructions) :
    unit.instructions[insn.address]? = some insn.plain := by
  have hmem : insn.plain ∈ cut.plain := hplain ▸ List.mem_map_of_mem hinsn
  obtain ⟨old, hold, heq⟩ := List.mem_map.mp hmem
  obtain ⟨i, hi⟩ := List.mem_iff_getElem?.mp hold
  have hget := (cutOut_cutBlocks hfresh hcut).getElem?_eq hi
  have haddress : insn.address = cut.address + i :=
    (congrArg Instruction.address heq).symm.trans (hfresh.address _ old hget)
  -- an entry of the unit has the natural class, so it is plain as it is
  have hclass : old.plain = old := by
    have hnatural := hfresh.natural _ old hget
    cases old
    cases hnatural
    rfl
  rw [haddress, hget, ← heq, hclass]

/-- The graph of a unit holds the code that can be run from the routine labels, and its delay
slots. -/
theorem graph_tiles {unit : SourceUnit} (hfresh : unit.Fresh) (routines : RoutineLabels) :
    ∃ graph, (unit.graph routines).run.value = .ok graph ∧
      graph.Tiles unit fun a => unit.Reached routines a ∨ unit.Slot routines a := by
  refine ⟨linkedGraph unit routines, value_graph hfresh routines, ?_⟩
  have hcutBlock : ∀ {id : BlockId} {block : Block},
      (linkedGraph unit routines).block? id = some block →
        ∃ cut, (cutBlocks unit routines)[id]? = some cut ∧ block.plain = cut.plain := by
    intro id block hblock
    obtain ⟨cut, hcut, rfl⟩ := block?_linkedGraph.1 hblock
    exact ⟨cut, hcut, plain_linkedBlock unit routines _ id cut⟩
  refine ⟨fun a => ?_, fun a id id' block block' hblock hblock' ha ha' => ?_,
    fun id block hblock insn hinsn => ?_, fun id block hblock => ?_,
    fun id id' block block' hblock hblock' hlt => ?_⟩
  · rw [← exists_mem_addresses hfresh]
    constructor
    · rintro ⟨id, cut, hcut, ha⟩
      refine ⟨id, _, block?_linkedGraph.2 ⟨cut, hcut, rfl⟩, ?_⟩
      rwa [Block.addresses_eq_of_plain (plain_linkedBlock unit routines _ id cut)]
    · rintro ⟨id, block, hblock, ha⟩
      obtain ⟨cut, hcut, hplain⟩ := hcutBlock hblock
      exact ⟨id, cut, hcut, Block.addresses_eq_of_plain hplain ▸ ha⟩
  · obtain ⟨cut, hcut, hplain⟩ := hcutBlock hblock
    obtain ⟨cut', hcut', hplain'⟩ := hcutBlock hblock'
    rw [Block.addresses_eq_of_plain hplain] at ha
    rw [Block.addresses_eq_of_plain hplain'] at ha'
    exact eq_of_mem_addresses hfresh hcut hcut' ha ha'
  · obtain ⟨cut, hcut, hplain⟩ := hcutBlock hblock
    exact getElem?_of_mem_instructions hfresh (List.mem_of_getElem? hcut) hplain hinsn
  · obtain ⟨cut, hcut, hplain⟩ := hcutBlock hblock
    rw [Block.addresses_eq_of_plain hplain, Block.address_eq_of_plain hplain,
      Block.length_eq_of_plain hplain]
    exact ⟨(cutOut_cutBlocks hfresh (List.mem_of_getElem? hcut)).addresses_eq hfresh.address,
      cut.length_pos⟩
  · obtain ⟨cut, hcut, hplain⟩ := hcutBlock hblock
    obtain ⟨cut', hcut', hplain'⟩ := hcutBlock hblock'
    have hmem : block.address ∈ block.addresses := List.mem_cons_self
    have hmem' : block'.address ∈ block'.addresses := List.mem_cons_self
    rw [Block.addresses_eq_of_plain hplain] at hmem
    rw [Block.addresses_eq_of_plain hplain'] at hmem'
    exact lt_of_mem_addresses hfresh hcut hcut' hlt _ hmem _ hmem'

/-- A loop whose branch has a delay slot. -/
def delayedLoop : SourceUnit :=
  (SourceUnit.parse "loop.s" "f:\n beq f\n nop\n bx lr\n").value.markDelaySlots [1]

/-- The theorem applied to a loop whose first branch takes the `nop` behind it along. -/
theorem graph_tiles_delayedLoop :
    delayedLoop.Fresh ∧ ∃ graph, (delayedLoop.graph ["f"]).run.value = .ok graph ∧
      graph.Tiles delayedLoop fun a => delayedLoop.Reached ["f"] a ∨ delayedLoop.Slot ["f"] a :=
  have hfresh := (SourceUnit.fresh_parse _ _).markDelaySlots _
  ⟨hfresh, graph_tiles hfresh ["f"]⟩

end RamOverlay
