import RamOverlay.Proofs.Code.Conditional
import RamOverlay.Proofs.Exit.Operands
import RamOverlay.Proofs.Relocation.BlockChange
import RamOverlay.Proofs.Source.Entries
import RamOverlay.Proofs.Weight.UnitRoutines

/-!
# Where the blocks of a unit stand

* **`SourceUnit.Parsed`**: units that were read from a text; their entries stand on ascending lines.
* **`SourceUnit.IsBlock`**: the block of a routine that stands at a place of its unit. It is told by
  its place, its lines come before those of the blocks at later places, and the entry behind it
  begins the next block if control falls through it.
* **`SourceUnit.Owns`**: the graphs of the routines of a unit, wherever their blocks are placed.
  They hold the blocks of the unit, each once.
-/

namespace RamOverlay

open Discovery

/-! ## Units that were read -/

namespace SourceUnit

/-- The unit was read from a text; delay slots may have been marked since. -/
inductive Parsed : SourceUnit → Prop where
  | parse (name text : String) : Parsed (SourceUnit.parse name text).value
  | markDelaySlots {unit : SourceUnit} (h : Parsed unit) (lines : List Nat) :
      Parsed (unit.markDelaySlots lines)

/-- No branch of the unit has a delay slot. -/
def NoSlots (unit : SourceUnit) : Prop := ∀ insn ∈ unit.instructions, insn.delaySlot = false

instance (unit : SourceUnit) : Decidable unit.NoSlots :=
  inferInstanceAs (Decidable (∀ insn ∈ unit.instructions, insn.delaySlot = false))

theorem noSlots_parse (name text : String) : (parse name text).value.NoSlots :=
  fun _ => delaySlot_of_mem_entriesFrom

theorem NoSlots.plainSlots {unit : SourceUnit} (h : unit.NoSlots) : unit.PlainSlots := by
  refine List.isChain_iff_getElem.2 fun i hi _ hdelay => ?_
  have hnone := h _ (List.getElem_mem (Nat.lt_of_succ_lt hi))
  exact absurd (hnone.symm.trans hdelay) Bool.false_ne_true

theorem line_of_mem_entriesFrom {line address : Nat} {lines : List (List Char)} {insn : Instruction}
    (h : insn ∈ entriesFrom line address lines) :
    line ≤ insn.line ∧ insn.line < line + lines.length := by
  induction lines generalizing line address with
  | nil => cases h
  | cons cs lines ih =>
    rw [entriesFrom] at h
    rw [List.length_cons]
    cases hentry : entry? line address cs with
    | none =>
      simp only [hentry] at h
      obtain ⟨hle, hlt⟩ := ih h
      omega
    | some first =>
      simp only [hentry] at h
      -- the entry of this line, or one of the lines behind it
      rcases List.mem_cons.mp h with rfl | h
      · rw [line_of_entry_eq_some hentry]
        omega
      · obtain ⟨hle, hlt⟩ := ih h
        omega

/-- Each entry has a line of its own, in order. -/
theorem pairwise_line_entriesFrom (line address : Nat) (lines : List (List Char)) :
    (entriesFrom line address lines).Pairwise (·.line < ·.line) := by
  induction lines generalizing line address with
  | nil => exact .nil
  | cons cs lines ih =>
    rw [entriesFrom]
    cases hentry : entry? line address cs with
    | none => exact ih (line + 1) address
    | some first =>
      refine .cons (fun insn hinsn => ?_) (ih (line + 1) (address + 1))
      rw [line_of_entry_eq_some hentry]
      exact (line_of_mem_entriesFrom hinsn).1

namespace Parsed

variable {unit : SourceUnit}

theorem fresh (h : unit.Parsed) : unit.Fresh := by
  induction h with
  | parse name text => exact fresh_parse name text
  | markDelaySlots _ lines ih => exact ih.markDelaySlots lines

/-- Marks on delay slots change nothing else about an entry. -/
theorem exists_of_mem_markDelaySlots {lines : List Nat} {insn : Instruction}
    (h : insn ∈ (unit.markDelaySlots lines).instructions) :
    ∃ old ∈ unit.instructions, insn = { old with delaySlot := insn.delaySlot } := by
  obtain ⟨old, hold, rfl⟩ := List.mem_map.1 h
  refine ⟨old, hold, ?_⟩
  split <;> rfl

theorem isRead (h : unit.Parsed) : ∀ insn ∈ unit.instructions, insn.IsRead := by
  induction h with
  | parse name text => exact isRead_parse name text
  | markDelaySlots _ lines ih =>
    intro insn hinsn
    obtain ⟨old, hold, heq⟩ := exists_of_mem_markDelaySlots hinsn
    rw [heq]
    exact ⟨(ih old hold).plain, (ih old hold).suppressed⟩

theorem pairwise_line (h : unit.Parsed) : unit.instructions.Pairwise (·.line < ·.line) := by
  induction h with
  | parse name text => exact pairwise_line_entriesFrom 0 0 _
  | markDelaySlots _ lines ih =>
    refine List.pairwise_map.2 (ih.imp fun {insn insn'} hlt => ?_)
    split <;> split <;> exact hlt

theorem line_lt (h : unit.Parsed) : ∀ insn ∈ unit.instructions, insn.line < unit.lines.length := by
  induction h with
  | parse name text =>
    intro insn hinsn
    have hlt := (line_of_mem_entriesFrom hinsn).2
    show insn.line < (List.map _ _).length
    rwa [List.length_map, ← Nat.zero_add (List.length _)]
  | markDelaySlots _ lines ih =>
    intro insn hinsn
    obtain ⟨old, hold, heq⟩ := exists_of_mem_markDelaySlots hinsn
    rw [heq]
    exact ih old hold

/-- Entries stand on the lines in their order. -/
theorem line_lt_line (h : unit.Parsed) {a b : Nat} {insn insn' : Instruction}
    (hinsn : unit.instructions[a]? = some insn) (hinsn' : unit.instructions[b]? = some insn')
    (hlt : a < b) : insn.line < insn'.line := by
  obtain ⟨ha, rfl⟩ := List.getElem?_eq_some_iff.1 hinsn
  obtain ⟨hb, rfl⟩ := List.getElem?_eq_some_iff.1 hinsn'
  exact List.pairwise_iff_getElem.1 h.pairwise_line a b ha hb hlt

end Parsed

end SourceUnit

/-! ## The blocks of a unit -/

/-- The tail is told by the entries. -/
theorem Block.tail_eq_of_instructions {block block' : Block}
    (h : block.instructions = block'.instructions) : block.tail = block'.tail := by
  have hfirst : block.first = block'.first := (List.cons.inj h).1
  unfold tail tailIndex
  rw [h, hfirst]

/-- The block, with the entries of the block at a place of its unit and the class of its tail. -/
def SourceUnit.IsBlock (unit : SourceUnit) (routines : RoutineLabels) (place : BlockId)
    (block : Block) : Prop :=
  ∃ cut original, (cutBlocks unit routines)[place]? = some cut ∧
    Corrected unit routines place cut original ∧ block.instructions = original.instructions

namespace SourceUnit.IsBlock

variable {unit : SourceUnit} {routines : RoutineLabels} {u v : BlockId} {block block' : Block}
  {insn insn' : Instruction}

/-- A block of a unit is one of those that were cut, but for its edges and its call class. -/
theorem exists_plain_eq (h : unit.IsBlock routines u block) :
    ∃ cut, (cutBlocks unit routines)[u]? = some cut ∧ block.plain = cut.plain := by
  obtain ⟨cut, original, hcut, hcorrected, hsame⟩ := h
  refine ⟨cut, hcut, ?_⟩
  rw [← hcorrected.plain_eq, Block.plain, hsame, Block.plain]

/-- An entry of a block is the one of the unit with its address, but for its call class. -/
theorem getElem?_address (h : unit.IsBlock routines u block) (hfresh : unit.Fresh)
    (hinsn : insn ∈ block.instructions) :
    unit.instructions[insn.address]? = some insn.plain := by
  obtain ⟨cut, hcut, hplain⟩ := h.exists_plain_eq
  exact getElem?_of_mem_instructions hfresh (List.mem_of_getElem? hcut) hplain hinsn

/-- The addresses of a block follow each other. -/
theorem addresses_eq (h : unit.IsBlock routines u block) (hfresh : unit.Fresh) :
    block.addresses = List.range' block.address block.instructions.length := by
  obtain ⟨cut, hcut, hplain⟩ := h.exists_plain_eq
  rw [Block.addresses_eq_of_plain hplain, Block.address_eq_of_plain hplain,
    Block.length_eq_of_plain hplain]
  exact (cutOut_cutBlocks hfresh (List.mem_of_getElem? hcut)).addresses_eq hfresh.address

/-- A block is at one place. -/
theorem place_unique (h : unit.IsBlock routines u block) (h' : unit.IsBlock routines v block)
    (hfresh : unit.Fresh) : u = v := by
  obtain ⟨cut, hcut, hplain⟩ := h.exists_plain_eq
  obtain ⟨cut', hcut', hplain'⟩ := h'.exists_plain_eq
  have hmem : block.address ∈ block.addresses := List.mem_cons_self
  exact eq_of_mem_addresses hfresh hcut hcut' (Block.addresses_eq_of_plain hplain ▸ hmem)
    (Block.addresses_eq_of_plain hplain' ▸ hmem)

section Parsed

variable (hparsed : unit.Parsed)
include hparsed

theorem line_lt (h : unit.IsBlock routines u block) (hinsn : insn ∈ block.instructions) :
    insn.line < unit.lines.length := by
  show insn.plain.line < _
  exact hparsed.line_lt _ (List.mem_of_getElem? (h.getElem?_address hparsed.fresh hinsn))

theorem pairwise_line (h : unit.IsBlock routines u block) :
    block.instructions.Pairwise (·.line < ·.line) := by
  have haddresses : block.instructions.Pairwise fun insn insn' => insn.address < insn'.address := by
    rw [← List.pairwise_map (f := Instruction.address) (R := (· < ·))]
    show block.addresses.Pairwise _
    rw [h.addresses_eq hparsed.fresh]
    exact List.pairwise_lt_range'
  refine haddresses.imp_of_mem fun {insn insn'} hinsn hinsn' hlt => ?_
  show insn.plain.line < insn'.plain.line
  exact hparsed.line_lt_line (h.getElem?_address hparsed.fresh hinsn)
    (h.getElem?_address hparsed.fresh hinsn') hlt

/-- The lines of a block come before those of the blocks at later places. -/
theorem line_lt_line (h : unit.IsBlock routines u block) (h' : unit.IsBlock routines v block')
    (hlt : u < v) (hinsn : insn ∈ block.instructions) (hinsn' : insn' ∈ block'.instructions) :
    insn.line < insn'.line := by
  obtain ⟨cut, hcut, hplain⟩ := h.exists_plain_eq
  obtain ⟨cut', hcut', hplain'⟩ := h'.exists_plain_eq
  show insn.plain.line < insn'.plain.line
  refine hparsed.line_lt_line (h.getElem?_address hparsed.fresh hinsn)
    (h'.getElem?_address hparsed.fresh hinsn') ?_
  refine lt_of_mem_addresses hparsed.fresh hcut hcut' hlt _ ?_ _ ?_
  · rw [← Block.addresses_eq_of_plain hplain]
    exact List.mem_map_of_mem hinsn
  · rw [← Block.addresses_eq_of_plain hplain']
    exact List.mem_map_of_mem hinsn'

theorem isRead_tail (h : unit.IsBlock routines u block) : block.tail.IsRead := by
  obtain ⟨cut, original, hcut, hcorrected, hsame⟩ := h
  have hmem := List.mem_of_getElem? hcut
  rw [Block.tail_eq_of_instructions hsame]
  exact hcorrected.isRead_tail (natural_tail hparsed.fresh hmem)
    (isRead_tail_cutBlocks hparsed.isRead hparsed.fresh hmem)

end Parsed

/-- The entry behind a block begins the next one if control falls through to it. -/
theorem exists_next (h : unit.IsBlock routines u block) (hfresh : unit.Fresh)
    (hslots : unit.PlainSlots) (hfalls : block.tail.isUnconditional = false) {next : Instruction}
    (hnext : unit.instructions[block.last.address + 1]? = some next) :
    ∃ cut, (cutBlocks unit routines)[u + 1]? = some cut ∧ cut.first = next := by
  obtain ⟨cut, original, hcut, hcorrected, hsame⟩ := h
  have hmem := List.mem_of_getElem? hcut
  have hplain : block.plain = cut.plain := by
    rw [← hcorrected.plain_eq, Block.plain, hsame, Block.plain]
  rw [Block.last_address_eq_of_plain hplain, last_address_cutBlocks hfresh hmem] at hnext
  -- only a tail that falls through is not made a jump, and linking does not change that it does
  have hcutFalls : cut.tail.isUnconditional = false := by
    rw [Block.tail_eq_of_instructions hsame] at hfalls
    cases hcorrected with
    | jump hcall =>
      rw [cut.tail_jumpTo] at hfalls
      exact absurd hfalls (by simp [Instruction.isUnconditional, Instruction.isBranch,
        Instruction.neverFallsThrough])
    | kept => rwa [isUnconditional_tail_linkedBlock _ _ (natural_tail hfresh hmem)] at hfalls
  rcases fallthrough_cutBlocks hfresh hslots hcut with ⟨-, -, hlt, cut', hcut', haddress⟩ | ⟨-, hno⟩
  · refine ⟨cut', hcut', ?_⟩
    have hfirst := first_cutBlocks hfresh (List.mem_of_getElem? hcut')
    rw [haddress, hnext] at hfirst
    exact (Option.some.inj hfirst).symm
  · exact absurd ⟨hcutFalls, (List.getElem?_eq_some_iff.1 hnext).1⟩ hno

/-- Without delay slots the tail comes last. -/
theorem tailIndex_eq (h : unit.IsBlock routines u block) (hfresh : unit.Fresh)
    (hslots : unit.NoSlots) : block.tailIndex + 1 = block.instructions.length := by
  rcases Block.tailIndexOf_cases block.instructions_ne_nil with
    ⟨hlength, -⟩ | ⟨-, branch, slot, hbranch, -, -, hdelay, -⟩
  · exact hlength
  · have hget := h.getElem?_address hfresh (List.mem_of_getElem? hbranch)
    have hnone := hslots _ (List.mem_of_getElem? hget)
    rw [show branch.plain.delaySlot = branch.delaySlot from rfl, hdelay] at hnone
    cases hnone

/-- Without delay slots the tail is the last entry. -/
theorem tail_eq_last (h : unit.IsBlock routines u block) (hfresh : unit.Fresh)
    (hslots : unit.NoSlots) : block.tail = block.last := by
  have hlast : block.instructions.getLast? = some block.last := by
    unfold Block.last Block.instructions
    rw [List.getLast?_cons, List.getLastD_eq_getLast?]
  rw [List.getLast?_eq_getElem?, ← h.tailIndex_eq hfresh hslots, Nat.add_sub_cancel,
    block.getElem?_tailIndex] at hlast
  exact Option.some.inj hlast

/-- The lines of a block are between those of its first entry and its tail. -/
theorem line_mem (h : unit.IsBlock routines u block) (hparsed : unit.Parsed)
    (hslots : unit.NoSlots) (hinsn : insn ∈ block.instructions) :
    block.line ≤ insn.line ∧ insn.line ≤ block.tail.line := by
  have hascending := List.pairwise_iff_getElem.1 (h.pairwise_line hparsed)
  have hlength := h.tailIndex_eq hparsed.fresh hslots
  obtain ⟨htail, heq⟩ := List.getElem?_eq_some_iff.1 block.getElem?_tailIndex
  obtain ⟨i, hi, rfl⟩ := List.mem_iff_getElem.1 hinsn
  -- the entry at `i` is not before the first one, and not behind the tail, which is the last one
  constructor
  · rcases Nat.eq_zero_or_pos i with rfl | hpos
    · exact Nat.le_refl _
    · exact Nat.le_of_lt (hascending 0 i block.length_pos hi hpos)
  · rw [← heq]
    rcases Nat.lt_or_eq_of_le (show i ≤ block.tailIndex by omega) with hlt | rfl
    · exact Nat.le_of_lt (hascending i _ hi htail hlt)
    · exact Nat.le_refl _

end SourceUnit.IsBlock

/-! ## The routines of a unit -/

/-- The graphs are the parts of the corrected graph of the unit, wherever their blocks are
placed. -/
structure SourceUnit.Owns (unit : SourceUnit) (routines : RoutineLabels) (corrected : Graph)
    (own : List Graph) : Prop where
  isCorrected : corrected.IsCorrected unit routines
  parts : ∃ parts, corrected.Splits routines parts ∧ List.Forall₂ Graph.Alike parts own

/-- The routines of a unit belong to a corrected graph, whose blocks they share out. -/
theorem SourceUnit.exists_owns {unit : SourceUnit} (hfresh : unit.Fresh) {routines : RoutineLabels}
    {own : List Graph} (hown : List.Forall₂ Graph.Alike (unit.routinesIn routines) own) :
    ∃ corrected, unit.Owns routines corrected own := by
  obtain ⟨corrected, hvalue, hcorrected⟩ := exists_corrected hfresh routines
  refine ⟨corrected, hcorrected, _,
    Graph.splits_partition (fun {u v} => hcorrected.lt_size u v) routines, ?_⟩
  unfold SourceUnit.routinesIn at hown
  rw [value_routines hfresh hvalue] at hown
  exact (List.forall₂_map_left_iff.1 hown).imp fun part graph halike =>
    (Graph.alike_analyzeLoops part).trans halike

/-- A block is in one component, and there at one position. -/
theorem Graph.eq_of_getElem?_members {components : List Nat} {n m i j : Nat} {id : BlockId}
    (h : (members components n)[i]? = some id) (h' : (members components m)[j]? = some id) :
    n = m ∧ i = j := by
  have hn := mem_members.1 (List.mem_of_getElem? h)
  have hm := mem_members.1 (List.mem_of_getElem? h')
  obtain rfl : n = m := Option.some.inj (hn.symm.trans hm)
  obtain ⟨hi, heq⟩ := List.getElem?_eq_some_iff.1 h
  obtain ⟨hj, heq'⟩ := List.getElem?_eq_some_iff.1 h'
  exact ⟨rfl, (nodup_members components n).getElem_inj_iff.1 (heq.trans heq'.symm)⟩

namespace SourceUnit.Owns

variable {unit : SourceUnit} {routines : RoutineLabels} {corrected graph : Graph}
  {own : List Graph} {n : Nat} {id : BlockId} {block : Block}

/-- A block of a routine is a block of the unit. -/
theorem exists_block (h : unit.Owns routines corrected own) (hgraph : own[n]? = some graph)
    (hblock : graph.block? id = some block) :
    ∃ u original, (Graph.members corrected.components n)[id]? = some u ∧
      corrected.block? u = some original ∧ block.instructions = original.instructions ∧
      (graph.successors id).map ((Graph.members corrected.components n)[·]?) =
        (corrected.successors u).map some := by
  obtain ⟨parts, hsplits, halike⟩ := h.parts
  obtain ⟨hn, rfl⟩ := List.getElem?_eq_some_iff.1 hgraph
  have hpart : n < parts.length := halike.length_eq ▸ hn
  have hsplit := hsplits.split n _ (List.getElem?_eq_getElem hpart)
  -- the routine has the blocks of the part, and the part those of the graph
  have hsame : parts[n].Alike own[n] := halike.get hpart hn
  rw [hsame.block] at hblock
  have hid : id < (Graph.members corrected.components n).length :=
    hsplit.size ▸ Graph.isSome_block?.1 (by rw [hblock]; rfl)
  have hplace := List.getElem?_eq_getElem hid
  obtain ⟨original, copy, horiginal, hcopy, hinstructions⟩ := hsplit.instructions id _ hplace
  obtain rfl := Option.some.inj (hblock.symm.trans hcopy)
  refine ⟨_, original, hplace, horiginal, hinstructions, ?_⟩
  rw [hsame.successors]
  exact hsplit.successors id _ hplace

/-- Each block of a routine is one of the unit. -/
theorem exists_isBlock (h : unit.Owns routines corrected own) (hgraph : own[n]? = some graph)
    (hblock : graph.block? id = some block) :
    ∃ u, (Graph.members corrected.components n)[id]? = some u ∧
      unit.IsBlock routines u block := by
  obtain ⟨u, original, hplace, horiginal, hsame, -⟩ := h.exists_block hgraph hblock
  obtain ⟨cut, hcut, hcorrected⟩ := h.isCorrected.exists_cut horiginal
  exact ⟨u, hplace, cut, original, hcut, hcorrected, hsame⟩

/-- Each block of the unit is in one of the routines. -/
theorem exists_place (h : unit.Owns routines corrected own) {u : BlockId}
    (hu : u < (cutBlocks unit routines).length) :
    ∃ (n : Nat) (graph : Graph) (id : BlockId) (block : Block),
      own[n]? = some graph ∧ graph.block? id = some block ∧
      unit.IsBlock routines u block := by
  obtain ⟨parts, hsplits, halike⟩ := h.parts
  rw [← h.isCorrected.size] at hu
  -- the parts share the blocks out, and the routines are like the parts
  obtain ⟨⟨n, id⟩, ⟨hn, hplace⟩, -⟩ := hsplits.once u hu
  have hown : n < own.length := halike.length_eq ▸ hn
  have hsame : parts[n].Alike own[n] := halike.get hn hown
  have hsplit := hsplits.split n _ (List.getElem?_eq_getElem hn)
  obtain ⟨-, copy, -, hcopy, -⟩ := hsplit.instructions id u hplace
  rw [← hsame.block] at hcopy
  obtain ⟨u', hplace', hisBlock⟩ := h.exists_isBlock (List.getElem?_eq_getElem hown) hcopy
  obtain rfl := Option.some.inj (hplace.symm.trans hplace')
  exact ⟨n, _, id, copy, List.getElem?_eq_getElem hown, hcopy, hisBlock⟩

/-- Blocks of two routines, or two blocks of one, are at different places. -/
theorem place_ne (h : unit.Owns routines corrected own) (hfresh : unit.Fresh) {m : Nat}
    {id' : BlockId} {graph' : Graph} {block' : Block} (hgraph : own[n]? = some graph)
    (hblock : graph.block? id = some block) (hgraph' : own[m]? = some graph')
    (hblock' : graph'.block? id' = some block') (hne : n ≠ m ∨ id ≠ id') {u v : BlockId}
    (hu : unit.IsBlock routines u block) (hv : unit.IsBlock routines v block') : u ≠ v := by
  obtain ⟨u', hplace, hu'⟩ := h.exists_isBlock hgraph hblock
  obtain ⟨v', hplace', hv'⟩ := h.exists_isBlock hgraph' hblock'
  obtain rfl := hu.place_unique hu' hfresh
  obtain rfl := hv.place_unique hv' hfresh
  rintro rfl
  obtain ⟨hgraphs, hids⟩ := Graph.eq_of_getElem?_members hplace hplace'
  exact hne.elim (fun hne => hne hgraphs) fun hne => hne hids

end SourceUnit.Owns

/-! ## The placed blocks of a unit -/

namespace SourceUnit

variable {unit : SourceUnit} {routines : RoutineLabels} {graphs own : List Graph}
  {placed p q : PlacedBlock}

/-- The placed blocks are those of the graphs. -/
theorem mem_placeOf_blocksOf : placed ∈ (blocksOf graphs).map placeOf ↔
    ∃ graph ∈ graphs, ∃ (id : BlockId) (block : Block), graph.block? id = some block ∧
      placed = placeOf (graph, id, block) := by
  unfold blocksOf Graph.block?
  simp only [List.mem_map, List.mem_flatMap]
  constructor
  · rintro ⟨-, ⟨graph, hgraph, ⟨id, node⟩, hnode, rfl⟩, rfl⟩
    exact ⟨graph, hgraph, id, node.block, by rw [Graph.mem_entries.1 hnode]; rfl, rfl⟩
  · rintro ⟨graph, hgraph, id, block, hblock, rfl⟩
    obtain ⟨node, hnode, rfl⟩ := Option.map_eq_some_iff.1 hblock
    exact ⟨_, ⟨graph, hgraph, (id, node), Graph.mem_entries.2 hnode, rfl⟩, rfl⟩

/-- The placed blocks are the blocks of the unit, each once. -/
structure Places (unit : SourceUnit) (routines : RoutineLabels) (placed : List PlacedBlock) :
    Prop where
  isBlock : ∀ p ∈ placed, ∃ u, unit.IsBlock routines u p.block
  once : placed.Pairwise fun p q => ∀ u v, unit.IsBlock routines u p.block →
    unit.IsBlock routines v q.block → u ≠ v
  all : ∀ u < (cutBlocks unit routines).length, ∃ p ∈ placed, unit.IsBlock routines u p.block

/-- The routines of a unit place each of its blocks once. -/
theorem places_of_routinesIn (hfresh : unit.Fresh)
    (hown : List.Forall₂ Graph.Alike (unit.routinesIn routines) own) :
    unit.Places routines ((blocksOf own).map placeOf) := by
  obtain ⟨corrected, howns⟩ := exists_owns hfresh hown
  refine ⟨fun p hp => ?_, ?_, fun u hu => ?_⟩
  · obtain ⟨graph, hgraph, id, block, hblock, rfl⟩ := mem_placeOf_blocksOf.1 hp
    obtain ⟨n, hn⟩ := List.mem_iff_getElem?.1 hgraph
    obtain ⟨u, -, hisBlock⟩ := howns.exists_isBlock hn hblock
    exact ⟨u, hisBlock⟩
  · -- two blocks of one routine, or of two
    rw [List.pairwise_map, blocksOf, List.pairwise_flatMap]
    refine ⟨fun graph hgraph => ?_, ?_⟩
    · obtain ⟨n, hn⟩ := List.mem_iff_getElem?.1 hgraph
      rw [List.pairwise_map]
      refine (Graph.pairwise_entries graph).imp_of_mem fun {entry entry'} hentry hentry' hne => ?_
      intro u v
      exact howns.place_ne hfresh hn (by rw [Graph.block?, Graph.mem_entries.1 hentry]; rfl) hn
        (by rw [Graph.block?, Graph.mem_entries.1 hentry']; rfl) (.inr hne)
    · refine List.pairwise_iff_getElem.2 fun n m hn hm hlt p hp q hq u v => ?_
      obtain ⟨⟨id, node⟩, hentry, rfl⟩ := List.mem_map.1 hp
      obtain ⟨⟨id', node'⟩, hentry', rfl⟩ := List.mem_map.1 hq
      exact howns.place_ne hfresh (List.getElem?_eq_getElem hn)
        (by rw [Graph.block?, Graph.mem_entries.1 hentry]; rfl) (List.getElem?_eq_getElem hm)
        (by rw [Graph.block?, Graph.mem_entries.1 hentry']; rfl) (.inl (Nat.ne_of_lt hlt))
  · obtain ⟨n, graph, id, block, hgraph, hblock, hisBlock⟩ := howns.exists_place hu
    exact ⟨_, mem_placeOf_blocksOf.2 ⟨graph, List.mem_of_getElem? hgraph, id, block, hblock, rfl⟩,
      hisBlock⟩

end SourceUnit

/-! ## Placements of programs -/

namespace Program

variable {program : Program} {graphs graphs' : List Graph} {unit : SourceUnit}

/-- The graphs that a build of the program makes, wherever their blocks are placed. -/
def IsPlacement (program : Program) (graphs : List Graph) : Prop :=
  ∃ built, program.build.run.value = .ok built ∧ List.Forall₂ Graph.Alike built.graphs graphs

theorem isPlacement_of_build {built : Program} (hbuild : program.build.run.value = .ok built) :
    program.IsPlacement built.graphs :=
  ⟨built, hbuild, List.forall₂_same.2 fun graph _ => Graph.Alike.refl graph⟩

/-- Graphs that differ in counts and places only are placements of the same program. -/
theorem IsPlacement.trans (h : program.IsPlacement graphs)
    (h' : List.Forall₂ Graph.Alike graphs graphs') : program.IsPlacement graphs' := by
  obtain ⟨built, hbuilt, halike⟩ := h
  refine ⟨built, hbuilt, ?_⟩
  generalize built.graphs = graphs₀ at halike
  induction halike generalizing graphs' with
  | nil => exact h'
  | cons hone _ ih =>
    cases h' with
    | cons hone' h' => exact .cons (hone.trans hone') (ih h')

theorem alike_mapNodes {graph : Graph} {f : BlockId → Node → Node}
    (h : ∀ id node, (f id node).block = node.block) : graph.Alike (graph.mapNodes f) := by
  refine ⟨rfl, rfl, fun id => ?_⟩
  unfold Graph.mapNodes Graph.block?
  rw [Array.getElem?_mapIdx, Option.map_map]
  exact Option.map_congr fun node _ => h id node

/-- Forcing blocks into a memory changes their places only. -/
theorem alike_placeForced (config : Config) (graphs : List Graph) :
    List.Forall₂ Graph.Alike graphs (RamOverlay.placeForced config graphs).value.1 := by
  refine List.forall₂_map_right_iff.2 (List.forall₂_same.2 fun graph _ => ?_)
  refine alike_mapNodes fun id node => ?_
  split <;> rfl

/-- Forced blocks are placed in RAM, and others stay where they are. -/
theorem IsPlacement.placeForced (h : program.IsPlacement graphs) (config : Config) :
    program.IsPlacement (RamOverlay.placeForced config graphs).value.1 :=
  h.trans (alike_placeForced config graphs)

section Read

variable (hread : ∀ unit ∈ program.units, unit.Parsed)
include hread

/-- Building a program gives the graphs of its units. -/
theorem graphs_of_build {built : Program} (hbuild : program.build.run.value = .ok built) :
    built.graphs = builtGraphs program.units := by
  have hsome : program.units ≠ [] := by
    intro hnil
    unfold build at hbuild
    rw [hnil] at hbuild
    cases hbuild
  rw [value_build program hsome fun unit hunit => (hread unit hunit).fresh] at hbuild
  obtain rfl := Except.ok.inj hbuild
  rfl

theorem IsPlacement.alike (h : program.IsPlacement graphs) :
    List.Forall₂ Graph.Alike (builtGraphs program.units) graphs := by
  obtain ⟨built, hbuild, halike⟩ := h
  exact graphs_of_build hread hbuild ▸ halike

/-- A build places no block. -/
theorem isPlacement_builtGraphs (hsome : program.units ≠ []) :
    program.IsPlacement (builtGraphs program.units) :=
  isPlacement_of_build (value_build program hsome fun unit hunit => (hread unit hunit).fresh)

/-- With distinct names, the routines with the name of a unit are those of the unit. -/
theorem filter_builtGraphs (hnames : (program.units.map (·.name)).Nodup)
    (hunit : unit ∈ program.units) :
    (builtGraphs program.units).filter (·.unit == unit.name) =
      unit.routinesIn (routineLabels program.units) := by
  unfold builtGraphs
  generalize routineLabels program.units = labels
  obtain ⟨before, after, hunits⟩ := List.append_of_mem hunit
  rw [hunits, List.map_append, List.map_cons] at hnames
  obtain ⟨-, hafter, hbefore⟩ := List.nodup_append.1 hnames
  -- the routines of the units before and behind have other names
  have hnone : ∀ others : List SourceUnit, (∀ other ∈ others, other ∈ program.units) →
      (∀ other ∈ others, other.name ≠ unit.name) →
        (others.flatMap (·.routinesIn labels)).filter (·.unit == unit.name) = [] := by
    intro others hothers hdiffers
    refine List.filter_eq_nil_iff.2 fun graph hgraph => ?_
    obtain ⟨other, hother, hgraph⟩ := List.mem_flatMap.1 hgraph
    rw [unit_of_mem_routinesIn (hread other (hothers other hother)).fresh hgraph]
    simpa using hdiffers other hother
  rw [hunits, List.flatMap_append, List.flatMap_cons, List.filter_append, List.filter_append,
    hnone before, hnone after, List.nil_append, List.append_nil, List.filter_eq_self]
  · intro graph hgraph
    rw [unit_of_mem_routinesIn (hread unit hunit).fresh hgraph]
    exact beq_self_eq_true unit.name
  · exact fun other hother => hunits ▸ by simp [hother]
  · intro other hother heq
    exact (List.nodup_cons.1 hafter).1 (heq ▸ List.mem_map_of_mem hother)
  · exact fun other hother => hunits ▸ by simp [hother]
  · intro other hother heq
    exact hbefore _ (List.mem_map_of_mem hother) _ List.mem_cons_self heq

/-- The placed graphs with the name of a unit are the routines of the unit. -/
theorem IsPlacement.alike_filter (h : program.IsPlacement graphs)
    (hnames : (program.units.map (·.name)).Nodup) (hunit : unit ∈ program.units) :
    List.Forall₂ Graph.Alike (unit.routinesIn (routineLabels program.units))
      (graphs.filter (·.unit == unit.name)) := by
  rw [← filter_builtGraphs hread hnames hunit]
  refine List.rel_filter (fun {graph other} halike => ?_) (h.alike hread)
  show (graph.unit == unit.name) = true ↔ (other.unit == unit.name) = true
  rw [halike.unit]

/-- The placed blocks of a unit are its blocks, each once. -/
theorem IsPlacement.places (h : program.IsPlacement graphs)
    (hnames : (program.units.map (·.name)).Nodup) (hunit : unit ∈ program.units) :
    unit.Places (routineLabels program.units) (unit.placedBlocks graphs) :=
  SourceUnit.places_of_routinesIn (hread unit hunit).fresh (h.alike_filter hread hnames hunit)

end Read

/-! ## A program with blocks in RAM -/

/-- Both arms of the test end in RAM. -/
def twoArms : SourceUnit :=
  (SourceUnit.parse "t.s"
    ("\t.type\tf, %function\nf:\n\tldr\tr2, .L9\n\tcmp\tr0, #0\n\tbeq\t.L2\n\tbl\tg\n"
      ++ "\tadr\tr1, .L9\n\tb\tg\n.L2:\n\tbx\tlr\n.L9:\n\t.word\t1\n"
      ++ "\t.type\tg, %function\ng:\n\tbx\tlr\n")).value

/-- The blocks behind the call and at the label are in RAM. -/
def twoArmsPlaced : List Graph :=
  (RamOverlay.placeForced { forced := [⟨"t.s", 6⟩, ⟨"t.s", 8⟩] } (builtGraphs [twoArms])).value.1

theorem parsed_twoArms : ∀ unit ∈ [twoArms], unit.Parsed := by
  intro unit hunit
  rw [List.mem_singleton.1 hunit]
  exact .parse _ _

theorem isPlacement_twoArms : ({ units := [twoArms] } : Program).IsPlacement twoArmsPlaced :=
  (isPlacement_builtGraphs parsed_twoArms (List.cons_ne_nil _ _)).placeForced _

theorem relocate_twoArms : ∃ stats, (twoArms.relocate "r5" twoArmsPlaced).run.value =
    .ok (twoArms.relocationEdits "r5" (twoArms.placedBlocks twoArmsPlaced), stats) :=
  SourceUnit.exists_value_relocate (by decide +kernel)

end Program

end RamOverlay
