import Mathlib.Data.List.SplitLengths
import RamOverlay.Proofs.Relocation.Rewritten

/-!
# Branches between the regions

A relative branch does not reach from flash to RAM or back. A branch to a label of its unit is an
edge of its graph, unless the label is one of a routine, so relocation sees from the edges when the
branch crosses the boundary. A branch into a routine has no edge; it is replaced if it stands in RAM
and is always taken, and else it stays. A branch to a label that only another unit defines has no
edge either.

* **`Program.graphsByUnit`**: the graphs of each unit, also of units that share a name.
* **`SourceUnit.Owns.crosses_of_jump`**: the block of a branch crosses the boundary if the block at
  the label is in the other region.
* **`SourceUnit.Diverts`**: the branches that are replaced.
* **`Program.diverted_iff_diverts`**: they, and no others, do not come through. What takes their
  place goes to the same label, and over any distance.
* **`Program.stays_relative_flashJump`**: a jump from flash into a routine in RAM that comes
  through.
-/

namespace RamOverlay

open Discovery

/-! ## Branches and edges -/

/-- A block crosses the boundary if one of its successors is in the other region. -/
theorem Graph.needsInstrumentation_iff {graph : Graph} {id : BlockId} :
    graph.needsInstrumentation id = true ↔
      ∃ next ∈ graph.successors id, graph.inRam next ≠ graph.inRam id := by
  unfold needsInstrumentation
  dsimp only
  split
  next hram => simp [hram]
  next hflash => simp [hflash]

section Edges

variable {unit : SourceUnit} {routines : RoutineLabels} {cut block : Block} {id : BlockId}
  {label : String}

/-- A branch to the label of a routine is marked as a call. -/
theorem isForcedCall_tail_linkedBlock {blocks : List Block}
    (hnatural : cut.tail.callClass = .natural) (hcall : cut.tail.isCall = false)
    (hlabel : cut.tail.destination.label? = some label) (hroutine : label ∈ routines) :
    (linkedBlock unit routines blocks id cut).tail.isForcedCall = true := by
  unfold linkedBlock
  simp only [hcall, hlabel, hroutine, if_true, Bool.false_eq_true, if_false]
  show (cut.withTail { cut.tail with callClass := .forced }).tail.isForcedCall = true
  rw [Block.tail_withTail (fun h => (Instruction.isBranch_forced hnatural).trans h) rfl]
  rfl

/-- No other block begins at the address of a block. -/
theorem blockAt?_address (hfresh : unit.Fresh) (hcut : (cutBlocks unit routines)[id]? = some cut) :
    blockAt? (cutBlocks unit routines) cut.address = some id := by
  obtain ⟨hid, rfl⟩ := List.getElem?_eq_some_iff.1 hcut
  refine List.findIdx?_eq_some_iff_getElem.2 ⟨hid, beq_self_eq_true _, fun other hother hsame => ?_⟩
  have hget := List.getElem?_eq_getElem (hother.trans hid)
  have hfirst :
      (cutBlocks unit routines)[id].address ∈ (cutBlocks unit routines)[other].addresses := by
    rw [← beq_iff_eq.1 hsame]
    exact List.mem_cons_self
  exact Nat.ne_of_lt hother (eq_of_mem_addresses hfresh hget hcut hfirst List.mem_cons_self)

/-- A branch to a label of its unit is an edge to the block that begins there. -/
theorem Graph.IsCorrected.mem_successors_of_branch {graph : Graph}
    (h : graph.IsCorrected unit routines) (hfresh : unit.Fresh)
    (hblock : graph.block? id = some block)
    (hbranch : block.tail.isBranch = true) (hlabel : block.tail.destination = .label label)
    (hnatural : block.tail.isNaturalCall = false) (hlocal : block.tail.isForcedCall = false)
    {target : BlockId} (htarget : (cutBlocks unit routines)[target]? = some cut)
    (haddress : unit.addressOf? label = some cut.address) : target ∈ graph.successors id := by
  obtain ⟨source, hsource, hcorrected⟩ := h.exists_cut hblock
  rw [successors_of_block? hblock]
  cases hcorrected with
  | jump hcall =>
    -- a call that became a jump is still written as a call
    rw [Block.tail_jumpTo] at hnatural
    rw [Instruction.isCall, show source.tail.isNaturalCall = false from hnatural] at hcall
    cases hcall
  | kept =>
    have hsourceNatural := natural_tail hfresh (List.mem_of_getElem? hsource)
    -- linking has not forced the tail, so the label is of no routine
    have hsame :
        (linkedBlock unit routines (cutBlocks unit routines) id source).tail = source.tail := by
      rcases tail_linkedBlock (cutBlocks unit routines) id hsourceNatural with heq | ⟨-, heq⟩
      · exact heq
      · rw [heq] at hlocal
        cases hlocal
    rw [hsame] at hbranch hlabel hnatural
    have hsourceLabel : source.tail.destination.label? = some label := by rw [hlabel]; rfl
    refine mem_successors_of_jump hsourceNatural hbranch hsourceLabel (fun hroutine => ?_) haddress
      (blockAt?_address hfresh htarget)
    have hcall : source.tail.isCall = false := by rw [Instruction.isCall, hnatural, Bool.false_and]
    rw [isForcedCall_tail_linkedBlock hsourceNatural hcall hsourceLabel hroutine] at hlocal
    cases hlocal

end Edges

namespace SourceUnit

variable {unit : SourceUnit} {routines : RoutineLabels} {corrected : Graph} {own : List Graph}
  {p q : PlacedBlock} {label : String}

/-- A branch to a label of its unit makes its block cross the boundary, if the block that begins at
the label is in the other region. -/
theorem Owns.crosses_of_jump (h : unit.Owns routines corrected own) (hfresh : unit.Fresh)
    (hp : p ∈ (blocksOf own).map placeOf) (hq : q ∈ (blocksOf own).map placeOf)
    (hbranch : p.block.tail.isBranch = true) (hlabel : p.block.tail.destination = .label label)
    (hnatural : p.block.tail.isNaturalCall = false) (hlocal : p.block.tail.isForcedCall = false)
    (haddress : unit.addressOf? label = some q.block.address) (hregion : q.inRam ≠ p.inRam) :
    p.crosses = true := by
  obtain ⟨graph, hgraph, id, block, hblock, rfl⟩ := mem_placeOf_blocksOf.1 hp
  obtain ⟨graph', hgraph', id', block', hblock', rfl⟩ := mem_placeOf_blocksOf.1 hq
  obtain ⟨n, hn⟩ := List.mem_iff_getElem?.1 hgraph
  obtain ⟨m, hm⟩ := List.mem_iff_getElem?.1 hgraph'
  obtain ⟨u, original, hu, horiginal, hsame, hsuccessors⟩ := h.exists_block hn hblock
  obtain ⟨v, hv, hisBlock⟩ := h.exists_isBlock hm hblock'
  obtain ⟨cut, hcut, hplain⟩ := hisBlock.exists_plain_eq
  have hedge : v ∈ corrected.successors u := by
    simp only [placeOf, Block.tail_eq_of_instructions hsame] at hbranch hlabel hnatural hlocal
    simp only [placeOf, Block.address_eq_of_plain hplain] at haddress
    exact h.isCorrected.mem_successors_of_branch hfresh horiginal hbranch hlabel hnatural hlocal
      hcut haddress
  -- the edge stays in the component, and so in the graph of the routine
  obtain ⟨next, hnext, hplace⟩ : ∃ next ∈ graph.successors id,
      (Graph.members corrected.components n)[next]? = some v := by
    rw [← List.mem_map, hsuccessors]
    exact List.mem_map_of_mem hedge
  obtain ⟨rfl, rfl⟩ := Graph.eq_of_getElem?_members hplace hv
  obtain rfl := Option.some.inj (hn.symm.trans hm)
  exact Graph.needsInstrumentation_iff.2 ⟨next, hnext, hregion⟩

end SourceUnit

/-! ## The graphs of a unit -/

/-- A list that is related to the pieces of another one, cut as these. -/
theorem forall₂_of_mem_splitLengths {α β γ : Type} {r : β → γ → Prop} {pieces : α → List β}
    {as : List α} {cs : List γ} (h : List.Forall₂ r (as.flatMap pieces) cs) {a : α} {piece : List γ}
    (hpiece : (a, piece) ∈ as.zip ((as.map fun a => (pieces a).length).splitLengths cs)) :
    List.Forall₂ r (pieces a) piece ∧ piece ⊆ cs := by
  induction as generalizing cs with
  | nil => cases hpiece
  | cons first as ih =>
    rw [List.flatMap_cons] at h
    rw [List.map_cons, List.splitLengths_cons, List.zip_cons_cons, List.mem_cons] at hpiece
    -- related lists are cut at the same places
    rcases hpiece with heq | hpiece
    · obtain ⟨rfl, rfl⟩ := Prod.mk.inj heq
      exact ⟨(List.forall₂_take_append _ _ _ h.flip).flip, List.take_subset _ _⟩
    · obtain ⟨hrelated, hsubset⟩ := ih (List.forall₂_drop_append _ _ _ h.flip).flip hpiece
      exact ⟨hrelated, List.Subset.trans hsubset (List.drop_subset _ _)⟩

namespace Program

variable {program : Program} {graphs own : List Graph} {unit : SourceUnit}

/-- The graphs of each unit, in the order of the units. A placement keeps this order. -/
def graphsByUnit (program : Program) (graphs : List Graph) : List (SourceUnit × List Graph) :=
  let counts := program.units.map fun unit => (unit.routinesIn (routineLabels program.units)).length
  program.units.zip (counts.splitLengths graphs)

section Own

variable (hread : ∀ unit ∈ program.units, unit.Parsed) (hplaced : program.IsPlacement graphs)
  (hown : (unit, own) ∈ program.graphsByUnit graphs)
include hread hplaced hown

theorem IsPlacement.alike_own :
    List.Forall₂ Graph.Alike (unit.routinesIn (routineLabels program.units)) own ∧ own ⊆ graphs :=
  forall₂_of_mem_splitLengths (hplaced.alike hread) hown

/-- Relocation goes over all blocks of its unit. -/
theorem IsPlacement.subset_placedBlocks :
    (SourceUnit.blocksOf own).map SourceUnit.placeOf ⊆ unit.placedBlocks graphs := by
  obtain ⟨halike, hsubset⟩ := hplaced.alike_own hread hown
  have hfresh := (hread unit (List.of_mem_zip hown).1).fresh
  intro p hp
  obtain ⟨graph, hgraph, hblock⟩ := SourceUnit.mem_placeOf_blocksOf.1 hp
  refine SourceUnit.mem_placeOf_blocksOf.2 ⟨graph, List.mem_filter.2 ⟨hsubset hgraph, ?_⟩, hblock⟩
  obtain ⟨n, hn, rfl⟩ := List.mem_iff_getElem.1 hgraph
  have hroutine : n < (unit.routinesIn (routineLabels program.units)).length :=
    halike.length_eq ▸ hn
  have hunit : own[n].unit = _ := (halike.get hroutine hn).unit
  rw [hunit]
  exact beq_iff_eq.2 (unit_of_mem_routinesIn hfresh (List.getElem_mem hroutine))

end Own

end Program

/-! ## What takes the place of a branch -/

/-- The label to which an exit goes, apart from the one that it gets. -/
def Exit.label? : Exit → Option String
  | compare _ _ label | always label | conditional _ label => some label
  | fallthrough => none

/-- The exit of a branch goes to the label of the branch. -/
theorem Instruction.LeavesBy.label?_eq {tail : Instruction} {exit : Exit} (h : tail.LeavesBy exit)
    (hbranch : tail.isBranch = true) : exit.label? = tail.destination.label? := by
  cases h with
  | compare _ hlabel => rw [hlabel]; rfl
  | always _ _ hlabel => rw [hlabel]; rfl
  | fallthrough hno =>
    rw [hno] at hbranch
    cases hbranch
  | conditional _ _ _ hlabel => rw [hlabel]; rfl

/-- The line of a branch to `label` is not in the edited text; a long exit to the label or a load of
the program counter is. -/
structure EditList.Diverted (edits : EditList) (source : List String) (register : String)
    (tail : Instruction) (label : String) : Prop where
  dropped : ∀ text, ⟨.source, tail.line, text⟩ ∉ edits.passages source
  replaced :
    (∃ exit : Exit, exit.label? = some label ∧
      ⟨.after, tail.line, exit.code register tail.line⟩ ∈ edits.passages source) ∨
    ⟨.inPlace, tail.line, "    ldr pc, =" ++ label ++ "+1"⟩ ∈ edits.passages source

namespace SourceUnit

variable {unit : SourceUnit} {register label text : String} {placed : List PlacedBlock}
  {p : PlacedBlock} {exit : Exit} {edits : EditList}

/-- The branches to a label, at the end of a block, that are replaced: jumps to a block of the unit
in the other region, branches of blocks that cross the boundary on any edge, and branches from RAM
into a routine if they are always taken. -/
inductive Diverts (unit : SourceUnit) (placed : List PlacedBlock) (p : PlacedBlock)
    (label : String) : Prop where
  | jump {q : PlacedBlock} (hnatural : p.block.tail.isNaturalCall = false)
      (hlocal : p.block.tail.isForcedCall = false) (hq : q ∈ placed)
      (haddress : unit.addressOf? label = some q.block.address) (hregion : q.inRam ≠ p.inRam)
  | edge (hcrosses : p.crosses = true)
  | tailCall (hram : p.inRam = true) (hforced : p.block.tail.isForcedCall = true)
      (hunconditional : p.block.tail.isUnconditional = true)

/-- A block that crosses the boundary loses the branch at its end and gets a long exit. -/
theorem change_of_exit (hexit : p.exit? unit.name = some exit)
    (hbranch : p.block.tail.isBranch = true) :
    (p.change unit.name register p.block.tail.line).removed = true ∧
      exit.code register p.block.tail.line ∈
        (p.change unit.name register p.block.tail.line).after := by
  rw [PlacedBlock.removed_change, PlacedBlock.after_change]
  simp [PlacedBlock.closing, hexit, hbranch]

/-- A jump into another routine from RAM is replaced if the exit of its block is not. -/
theorem mem_inPlace_of_tailCall (hram : p.inRam = true) (hstays : p.crosses = false)
    (htext : p.block.tail.tailCallText? = some text) :
    text ∈ (p.change unit.name register p.block.tail.line).inPlace := by
  rw [PlacedBlock.inPlace_change]
  exact PlacedBlock.mem_replacements.2 (.inr ⟨hram, .inr ⟨⟨rfl, hstays⟩, htext⟩⟩)

section Edits

variable {graphs : List Graph} {stats : RelocationStats}
  (hrelocate : (unit.relocate register graphs).run.value = .ok (edits, stats))
  (hp : p ∈ unit.placedBlocks graphs)
include hrelocate hp

/-- The edits hold what is changed for the block. -/
theorem within_atLine (line : Nat) :
    (p.change unit.name register line).Within (edits.atLine line) := by
  rw [(relocate_cases hrelocate).2.1 line]
  exact within_changesAt hp

/-- The branch of a block that crosses the boundary is replaced by a long exit to its label. -/
theorem diverted_of_crosses (hget : unit.lines[p.block.tail.line]? = some text)
    (hbranch : p.block.tail.isBranch = true) (hlabel : p.block.tail.destination = .label label)
    (hcrosses : p.crosses = true) :
    edits.Diverted unit.lines register p.block.tail label := by
  obtain ⟨exit, hsome⟩ := (relocate_cases hrelocate).1 p hp hcrosses
  have hexit := (PlacedBlock.exit?_eq_some.1 hsome).2
  obtain ⟨hremoved, hcode⟩ := change_of_exit hsome hbranch
  have hwithin := within_atLine hrelocate hp p.block.tail.line
  refine ⟨fun text hmem => ?_, .inl ⟨exit, ?_, EditList.mem_passages.2 ⟨text, hget, ?_⟩⟩⟩
  · have hkept := (EditList.mem_source_iff.1 hmem).2
    -- the line of the tail is taken out
    rw [EditList.drops, hwithin.removed hremoved, Bool.true_or] at hkept
    cases hkept
  · -- the exit goes to the label of the tail
    rw [(p.block.leavesBy hexit).label?_eq hbranch, hlabel]
    rfl
  · -- and its code stands behind the line
    exact LineEdits.mem_passages.2 (.inr (.inr ⟨_, hwithin.after hcode, rfl⟩))

/-- A jump from RAM into a routine is replaced by a load of the program counter. -/
theorem diverted_of_tailCall (hget : unit.lines[p.block.tail.line]? = some text)
    (hlabel : p.block.tail.destination = .label label) (hram : p.inRam = true)
    (hstays : p.crosses = false) (hforced : p.block.tail.isForcedCall = true)
    (hunconditional : p.block.tail.isUnconditional = true) :
    edits.Diverted unit.lines register p.block.tail label := by
  have htext : p.block.tail.tailCallText? = some ("    ldr pc, =" ++ label ++ "+1") := by
    rw [Instruction.tailCallText?, hforced, hunconditional, hlabel]
    rfl
  have hinPlace := (within_atLine hrelocate hp p.block.tail.line).inPlace
    (mem_inPlace_of_tailCall hram hstays htext)
  refine ⟨fun text hmem => ?_, .inr (EditList.mem_passages.2 ⟨text, hget, ?_⟩)⟩
  · have hkept := (EditList.mem_source_iff.1 hmem).2
    -- a line with a replacement does not come through
    rw [EditList.drops, Bool.or_eq_false_iff, Bool.not_eq_false', List.isEmpty_iff] at hkept
    exact List.ne_nil_of_mem hinPlace hkept.2
  · exact LineEdits.mem_passages.2 (.inr (.inl (LineEdits.mem_middle_of_mem_inPlace hinPlace)))

end Edits

end SourceUnit

namespace Program

open SourceUnit

variable {program : Program} {graphs own : List Graph} {unit : SourceUnit} {register label : String}
  {edits : EditList} {stats : RelocationStats} {p : PlacedBlock}

/-- Which branches are replaced: those to a block of their unit in the other region, those of a
block that has a successor there, and the jumps from RAM into a routine. If the units have different
names, so that nothing else is changed on the line of a branch, these are all: a branch from flash
into a routine comes through wherever the routine is, and so does one from RAM on a condition. -/
theorem diverted_iff_diverts (hread : ∀ unit ∈ program.units, unit.Parsed)
    (hplaced : program.IsPlacement graphs) (hown : (unit, own) ∈ program.graphsByUnit graphs)
    (hrelocate : (unit.relocate register graphs).run.value = .ok (edits, stats))
    (hp : p ∈ (blocksOf own).map placeOf) (hbranch : p.block.tail.isBranch = true)
    (hlabel : p.block.tail.destination = .label label) :
    (unit.Diverts ((blocksOf own).map placeOf) p label →
      edits.Diverted unit.lines register p.block.tail label) ∧
    ((program.units.map (·.name)).Nodup →
      edits.Diverted unit.lines register p.block.tail label →
        unit.Diverts ((blocksOf own).map placeOf) p label) ∧
    unit.render edits = Text.joinWith "\n"
      ((edits.passages unit.lines).flatMap Passage.lines ++ [".data"]) ++ "\n" := by
  have hunit := (List.of_mem_zip hown).1
  have hparsed := hread unit hunit
  obtain ⟨halike, -⟩ := hplaced.alike_own hread hown
  obtain ⟨corrected, howns⟩ := exists_owns hparsed.fresh halike
  obtain ⟨u, hblock⟩ := (places_of_routinesIn hparsed.fresh halike).isBlock p hp
  have hget := List.getElem?_eq_getElem
    (hblock.line_lt hparsed p.block.tail_mem)
  have hmem := hplaced.subset_placedBlocks hread hown hp
  have hcrosses : p.crosses = true → edits.Diverted unit.lines register p.block.tail label :=
    diverted_of_crosses hrelocate hmem hget hbranch hlabel
  refine ⟨fun hdiverts => ?_, fun hnames hdiverted => ?_,
    unit.render_eq_passages (relocate_cases hrelocate).2.2⟩
  · cases hdiverts with
    | jump hnatural hlocal hq haddress hregion =>
      exact hcrosses (howns.crosses_of_jump hparsed.fresh hp hq hbranch hlabel hnatural hlocal
        haddress hregion)
    | edge hedge => exact hcrosses hedge
    | tailCall hram hforced hunconditional =>
      cases hstays : p.crosses with
      | true => exact hcrosses hstays
      | false =>
        exact diverted_of_tailCall hrelocate hmem hget hlabel hram hstays hforced hunconditional
  · -- a line that does not come through is rewritten, and a branch only in these ways
    have hdrops : edits.drops p.block.tail.line = true := by
      rw [← Bool.not_eq_false]
      exact fun hkept => hdiverted.dropped _ (EditList.mem_source_iff.2 ⟨hget, hkept⟩)
    have hrewrites : p.Rewrites p.block.tail.line :=
      (hplaced.drops_iff hread hnames hunit hrelocate hmem p.standsOn_tail).1 hdrops
    rcases hrewrites.of_branch (hblock.pairwise_line hparsed) (hblock.isRead_tail hparsed) hbranch
      hlabel with hedge | ⟨hram, hforced, hunconditional⟩
    · exact .edge hedge
    · exact .tailCall hram hforced hunconditional

/-- The branch to the arm in RAM, and the jump from RAM into the other routine. -/
theorem diverted_iff_diverts_twoArms : ∃ edits stats own p q,
    (∀ unit ∈ [twoArms], unit.Parsed) ∧
      ({ units := [twoArms] } : Program).IsPlacement twoArmsPlaced ∧
      (twoArms, own) ∈ ({ units := [twoArms] } : Program).graphsByUnit twoArmsPlaced ∧
      (twoArms.relocate "r5" twoArmsPlaced).run.value = .ok (edits, stats) ∧
      (p ∈ (blocksOf own).map placeOf ∧ p.block.tail.line = 4 ∧ p.block.tail.isBranch = true ∧
        p.block.tail.destination = .label ".L2" ∧
        twoArms.Diverts ((blocksOf own).map placeOf) p ".L2" ∧
        edits.Diverted twoArms.lines "r5" p.block.tail ".L2") ∧
      q ∈ (blocksOf own).map placeOf ∧ q.block.tail.line = 7 ∧ q.block.tail.isBranch = true ∧
        q.block.tail.destination = .label "g" ∧
        twoArms.Diverts ((blocksOf own).map placeOf) q "g" ∧
        edits.Diverted twoArms.lines "r5" q.block.tail "g" := by
  obtain ⟨stats, hrelocate⟩ := relocate_twoArms
  obtain ⟨own, hown⟩ : ∃ own, own =
      twoArmsPlaced.take (twoArms.routinesIn (routineLabels [twoArms])).length := ⟨_, rfl⟩
  have hmem : (twoArms, own) ∈ ({ units := [twoArms] } : Program).graphsByUnit twoArmsPlaced := by
    rw [hown, graphsByUnit]
    simp only [List.map_cons, List.map_nil, List.splitLengths_cons, List.zip_cons_cons,
      List.mem_cons_self]
  have hblocks :
      (∃ p ∈ (blocksOf own).map placeOf, p.block.tail.line = 4 ∧ p.block.tail.isBranch = true ∧
        p.block.tail.destination = .label ".L2" ∧ p.block.tail.isNaturalCall = false ∧
        p.block.tail.isForcedCall = false ∧ ∃ target ∈ (blocksOf own).map placeOf,
          twoArms.addressOf? ".L2" = some target.block.address ∧ target.inRam ≠ p.inRam) ∧
      ∃ q ∈ (blocksOf own).map placeOf, q.block.tail.line = 7 ∧ q.block.tail.isBranch = true ∧
        q.block.tail.destination = .label "g" ∧ q.inRam = true ∧
        q.block.tail.isForcedCall = true ∧ q.block.tail.isUnconditional = true := by
    rw [hown]
    decide +kernel
  obtain ⟨⟨p, hp, hline, hbranch, hlabel, hnatural, hlocal, target, htarget, haddress, hregion⟩,
    q, hq, hline', hbranch', hlabel', hram, hforced, hunconditional⟩ := hblocks
  have hdiverts := Diverts.jump hnatural hlocal htarget haddress hregion
  have hdiverts' : twoArms.Diverts ((blocksOf own).map placeOf) q "g" :=
    .tailCall hram hforced hunconditional
  have hmain := @diverted_iff_diverts { units := [twoArms] } _ _ _ _ _ _ _ _ parsed_twoArms
    isPlacement_twoArms hmem hrelocate hp hbranch hlabel
  have hmain' := @diverted_iff_diverts { units := [twoArms] } _ _ _ _ _ _ _ _ parsed_twoArms
    isPlacement_twoArms hmem hrelocate hq hbranch' hlabel'
  exact ⟨_, stats, own, p, q, parsed_twoArms, isPlacement_twoArms, hmem, hrelocate,
    ⟨hp, hline, hbranch, hlabel, hdiverts, hmain.1 hdiverts⟩,
    hq, hline', hbranch', hlabel', hdiverts', hmain'.1 hdiverts'⟩

end Program

/-! ## Branches that stay -/

/-- Whether the block ends in a branch, and no linking call, to a label that begins the other block,
which is in the other region. -/
def PlacedBlock.branchesOver (placed other : PlacedBlock) : Bool :=
  let tail := placed.block.tail
  tail.isBranch && !tail.isNaturalCall &&
    tail.destination.label?.any other.block.first.definesLabel && placed.inRam != other.inRam

namespace Program

open SourceUnit

/-- Two routines, of which the second ends in a jump into the first. -/
def flashJump : SourceUnit :=
  (SourceUnit.parse "a.s"
    "\t.type\tf, %function\nf:\n\tbx\tlr\n\t.type\tk, %function\nk:\n\tb\tf\n").value

/-- The first routine is in RAM, the second one in flash. -/
def flashJumpPlaced : List Graph :=
  (RamOverlay.placeForced { forced := [⟨"a.s", 1⟩] } (builtGraphs [flashJump])).value.1

/-- The jump from flash comes through as it is, though it goes to a label that begins a block in
RAM. It has no edge, since it enters a routine, and no other rule looks at it in flash. -/
theorem stays_relative_flashJump : ∃ edits stats p q,
    (∀ unit ∈ [flashJump], unit.Parsed) ∧
      ({ units := [flashJump] } : Program).IsPlacement flashJumpPlaced ∧
      (flashJump.relocate "r5" flashJumpPlaced).run.value = .ok (edits, stats) ∧
      p ∈ flashJump.placedBlocks flashJumpPlaced ∧ q ∈ flashJump.placedBlocks flashJumpPlaced ∧
      p.inRam = false ∧ p.branchesOver q = true ∧ p.block.tail.line = 5 ∧
      ⟨.source, 5, "\tb\tf"⟩ ∈ edits.passages flashJump.lines := by
  have hread : ∀ unit ∈ [flashJump], unit.Parsed := by
    intro unit hunit
    rw [List.mem_singleton.1 hunit]
    exact .parse _ _
  have hplaced : ({ units := [flashJump] } : Program).IsPlacement flashJumpPlaced :=
    (isPlacement_builtGraphs hread (List.cons_ne_nil _ _)).placeForced _
  have hblocks :
      (flashJump.placedBlocks flashJumpPlaced).findSome? (·.failure? flashJump.name) = none ∧
      (∃ p ∈ flashJump.placedBlocks flashJumpPlaced,
        ∃ q ∈ flashJump.placedBlocks flashJumpPlaced,
          p.inRam = false ∧ p.branchesOver q = true ∧ p.block.tail.line = 5) ∧
      flashJump.lines[5]? = some "\tb\tf" ∧
      (flashJump.relocationEdits "r5" (flashJump.placedBlocks flashJumpPlaced)).drops 5 =
        false := by
    decide +kernel
  obtain ⟨hexits, ⟨p, hp, q, hq, hflash, hover, hline⟩, hget, hkept⟩ := hblocks
  obtain ⟨stats, hrelocate⟩ := @SourceUnit.exists_value_relocate _ "r5" _ hexits
  exact ⟨_, stats, p, q, hread, hplaced, hrelocate, hp, hq, hflash, hover, hline,
    EditList.mem_source_iff.2 ⟨hget, hkept⟩⟩

end Program

end RamOverlay
