import RamOverlay.Proofs.Relocation.Changes
import RamOverlay.Relocation.Unit

/-!
# What relocation changes for a block

Relocation goes over the blocks of a unit three times, and each time adds its changes to the lines
of the blocks, one block after the other. So the changes of each pass to a line are those of the
single blocks, in order, and those of the labels before the entries after blocks come last.

* **`PlacedBlock.loadChange`, `exitChange`, `ramChange`, `markChange`, `labelChange`**: what a pass
  changes for one block about a line.
* **`SourceUnit.value_relocate`**: a relocation either fails with the error of the first block that
  cannot get a long exit, or its edits are the changes of all blocks.
-/

namespace RamOverlay

/-- A block of a unit where it is placed. -/
structure PlacedBlock where
  block : Block
  inRam : Bool
  /-- Whether its exit crosses the boundary. -/
  crosses : Bool
  deriving DecidableEq, Repr

/-- A fold whose steps never fail is a pure one. -/
theorem Attempt.value_foldlM {ε α β : Type} {f : β → α → Attempt ε β} {g : β → α → β}
    (h : ∀ b a, (f b a).run.value = .ok (g b a)) (as : List α) (b : β) :
    (as.foldlM f b).run.value = .ok (as.foldl g b) := by
  induction as generalizing b with
  | nil => rfl
  | cons a as ih => rw [List.foldlM_cons, Attempt.value_bind_of_ok _ (h b a), ih, List.foldl_cons]

/-! ## The texts that replace instructions -/

namespace Instruction

/-- The text in the place of a load that reads a literal. -/
def loadText? (insn : Instruction) : Option String :=
  insn.literalLoad?.map fun (register, symbol) =>
    "    ldr " ++ register ++ ", =" ++ symbol
      ++ "\n    ldr " ++ register ++ ", [" ++ register ++ "]"

/-- The text in the place of an instruction that does not work from RAM. -/
def ramText? (register : String) (insn : Instruction) : Option String :=
  if insn.isCall then
    insn.destination.label?.map fun label =>
      "    ldr " ++ register ++ ", =" ++ label ++ "\n    blx " ++ register
  else if insn.isAddressGenerator then
    (Text.cutFirstOf ',' insn.operands).map fun (target, symbol) =>
      "    ldr " ++ Text.strip target ++ ", =" ++ Text.strip symbol
  else none

/-- The text in the place of a branch into another routine. -/
def tailCallText? (tail : Instruction) : Option String :=
  if tail.isForcedCall && tail.isUnconditional then
    tail.destination.label?.map fun label => "    ldr pc, =" ++ label ++ "+1"
  else none

end Instruction

/-- The entries of a block that stand on a line; one at most, in a parsed unit. -/
def Block.entriesOn (block : Block) (line : Nat) : List Instruction :=
  block.instructions.filter (·.line == line)

/-! ## The changes for a block -/

namespace PlacedBlock

variable (placed : PlacedBlock) (unit : SourceUnit) (register : String) (line : Nat)

/-- The long exit that the block gets. -/
def exit? (unit : String) : Option Exit :=
  if placed.crosses then (placed.block.exit unit).toOption else none

/-- Why the block cannot get the long exit that it needs. -/
def failure? (unit : String) : Option ExitError :=
  if placed.crosses then
    match placed.block.exit unit with
    | .ok _ => none
    | .error e => some e
  else none

/-- Whether a literal pool stands behind the tail, apart from that of a long exit. -/
def hasPool : Bool :=
  placed.block.tail.isUnconditional && !placed.block.tail.isCall && !placed.crosses

/-- What the references of the block change about a line. -/
def loadChange : LineEdits :=
  { before := if placed.block.line = line then [".align 2"] else []
    inPlace := (placed.block.entriesOn line).filterMap Instruction.loadText?
    after := if placed.block.tail.line = line ∧ placed.hasPool = true then [".ltorg"] else [] }

/-- What the long exit of the block changes about a line. -/
def exitChange (unit : String) : LineEdits :=
  match placed.exit? unit with
  | some exit =>
    let tail := placed.block.tail
    { removed := tail.line == line && tail.isBranch
      before :=
        if placed.block.line = line then ["# INSTRUMENTED " ++ Text.decimal placed.block.line]
        else []
      after := if tail.line = line then [exit.code register tail.line] else [] }
  | none => {}

/-- What the move of the block to RAM changes about a line. -/
def ramChange : LineEdits :=
  let tail := placed.block.tail
  { before :=
      if placed.block.line = line then [".section " ++ EditList.ramSection ++ ", \"x\"\n.align 2"]
      else []
    inPlace := (placed.block.entriesOn line).filterMap (Instruction.ramText? register) ++
      if tail.line = line ∧ placed.crosses = false then tail.tailCallText?.toList else []
    after := if tail.line = line then [".text\n.align 2"] else [] }

/-- The mark at the start of the block. -/
def mark (unit : String) : String := "# break " ++ unit ++ ":" ++ Text.decimal placed.block.line

/-- What the mark of the block changes about a line. -/
def markChange (unit : String) : LineEdits :=
  if placed.block.line = line then
    if placed.block.first.isLabel then { after := [placed.mark unit] }
    else { before := [placed.mark unit] }
  else {}

/-- What the label before the entry after the block changes about a line. -/
def labelChange : LineEdits :=
  match placed.exit? unit.name with
  | some exit =>
    if unit.lineAfter placed.block = line ∧ exit.fallsThrough = true then
      { before := [Exit.fallthroughLabel placed.block.tail.line ++ ":"] }
    else {}
  | none => {}

theorem exit?_eq_some {placed : PlacedBlock} {unit : String} {exit : Exit} :
    placed.exit? unit = some exit ↔ placed.crosses = true ∧ placed.block.exit unit = .ok exit := by
  unfold exit?
  cases placed.crosses <;> cases placed.block.exit unit <;> simp [Except.toOption]

end PlacedBlock

/-! ## The single steps -/

namespace EditList

variable (edits : EditList)

/-- Replacements of some of the entries of a block. -/
theorem adds_replaceEach (step : EditList → Instruction → EditList)
    (text? : Instruction → Option String)
    (hstep : ∀ (edits : EditList) (insn : Instruction), step edits insn =
      match text? insn with
      | some text => edits.replace insn.line text
      | none => edits) (block : Block) :
    edits.Adds (block.instructions.foldl step edits) fun line =>
      { inPlace := (block.entriesOn line).filterMap text? } := by
  -- one entry adds its own text, on its own line
  have hone : ∀ (edits : EditList) (insn : Instruction), edits.Adds (step edits insn) fun line =>
      { inPlace := if insn.line = line then (text? insn).toList else [] } := by
    intro edits insn
    rw [hstep]
    cases text? insn with
    | none => exact (Adds.refl edits).congr fun line => by simp
    | some text => exact (adds_addAt edits _ _).congr fun line => by split <;> rfl
  refine (Adds.foldl hone block.instructions edits).congr fun line => ?_
  unfold Block.entriesOn
  -- the texts of the entries on a line come in the order of the entries
  induction block.instructions with
  | nil => rfl
  | cons insn insns ih =>
    rw [List.map_cons, LineEdits.concat_cons, ih, List.filter_cons]
    by_cases hline : insn.line = line
    · rw [if_pos hline, if_pos (beq_iff_eq.2 hline), List.filterMap_cons]
      cases text? insn <;> rfl
    · rw [if_neg hline, if_neg fun h => hline (beq_iff_eq.1 h)]
      rfl

/-- The first line of a block is aligned, its loads are replaced, and their literals stand behind a
tail that never goes on. -/
theorem adds_relocateReferences (placed : PlacedBlock) :
    edits.Adds (edits.relocateReferences placed.block placed.crosses) placed.loadChange := by
  have hloads := adds_replaceEach edits replaceLoad Instruction.loadText? (fun edits insn => by
    unfold replaceLoad Instruction.loadText?
    cases insn.literalLoad? <;> rfl) placed.block
  unfold relocateReferences PlacedBlock.loadChange
  dsimp only
  rw [show (placed.block.tail.isUnconditional && !placed.block.tail.isCall && !placed.crosses) =
    placed.hasPool from rfl]
  split
  -- only a block with a pool has its literals put behind the tail
  next hpool =>
    refine ((hloads.trans (adds_addAt _ _ _)).trans (adds_addAt _ _ _)).congr fun line => ?_
    by_cases htail : placed.block.tail.line = line <;>
      by_cases hfirst : placed.block.line = line <;>
        simp [LineEdits.append, htail, hfirst, hpool]
  next hpool =>
    refine (hloads.trans (adds_addAt _ _ _)).congr fun line => ?_
    by_cases hfirst : placed.block.line = line <;> simp [LineEdits.append, hfirst, hpool]

/-- Calls and addresses are replaced entry by entry, each on its own line. -/
theorem adds_replaceForRam (register : String) (block : Block) :
    edits.Adds (block.instructions.foldl (replaceForRam register) edits) fun line =>
      { inPlace := (block.entriesOn line).filterMap (Instruction.ramText? register) } := by
  refine adds_replaceEach edits (replaceForRam register) _ (fun edits insn => ?_) block
  unfold replaceForRam Instruction.ramText?
  split
  · cases insn.destination.label? <;> rfl
  · split
    · cases Text.cutFirstOf ',' insn.operands <;> rfl
    · rfl

/-- A jump into another routine is replaced on the line of the tail. -/
theorem adds_replaceTailCall (unit : String) (tail : Instruction)
    (hforced : tail.isForcedCall = true) :
    edits.Adds (edits.replaceTailCall unit tail).value fun line =>
      { inPlace := if tail.line = line then tail.tailCallText?.toList else [] } := by
  unfold replaceTailCall Instruction.tailCallText?
  rw [hforced, Bool.true_and]
  cases tail.destination.label? with
  | none => exact (Adds.refl edits).congr fun line => by simp
  | some label =>
    cases tail.isUnconditional with
    | false => exact (Adds.refl edits).congr fun line => by simp
    | true => exact (adds_addAt edits _ _).congr fun line => by split <;> rfl

/-- What is added for a block in RAM. -/
theorem adds_moveToRam (unit register : String) (placed : PlacedBlock) :
    edits.Adds (edits.moveToRam unit placed.block register placed.crosses).value
      (placed.ramChange register) := by
  have hentries := adds_replaceForRam edits register placed.block
  unfold moveToRam PlacedBlock.ramChange
  dsimp only
  split
  next hcall =>
    -- a forced call at the end of a block that stays is replaced, after all others
    obtain ⟨hforced, hstays⟩ := Bool.and_eq_true_iff.1 hcall
    refine (((hentries.trans (adds_replaceTailCall _ unit _ hforced)).trans
      (adds_addAt _ _ _)).trans (adds_addAt _ _ _)).congr fun line => ?_
    have hstays : placed.crosses = false := by simpa using hstays
    by_cases htail : placed.block.tail.line = line <;>
      by_cases hfirst : placed.block.line = line <;>
        simp [LineEdits.append, htail, hfirst, hstays]
  next hcall =>
    refine ((hentries.trans (adds_addAt _ _ _)).trans (adds_addAt _ _ _)).congr fun line => ?_
    -- there is no such call, or the long exit takes its place
    have hnone : placed.crosses = false → placed.block.tail.tailCallText? = none := by
      intro hstays
      rw [hstays, Bool.not_false, Bool.and_true] at hcall
      simp [Instruction.tailCallText?, hcall]
    by_cases htail : placed.block.tail.line = line <;>
      by_cases hfirst : placed.block.line = line <;>
        cases hcrosses : placed.crosses <;>
          simp_all [LineEdits.append]

/-- The mark goes before the first line of a block, or behind its label. -/
theorem adds_markStart (unit : String) (placed : PlacedBlock) :
    edits.Adds (edits.markStart unit placed.block) (placed.markChange · unit) := by
  unfold markStart PlacedBlock.markChange PlacedBlock.mark
  dsimp only
  split
  · exact adds_addAt edits _ _
  · exact adds_addAt edits _ _

end EditList

namespace UnitEdits

variable {unit : String} {block : Block}

/-- Where a block has no exit, rewriting it fails with the same error. -/
theorem instrument_of_error {edits : UnitEdits} {nextLine : Nat} {register : String} {e : ExitError}
    (hexit : block.exit unit = .error e) :
    edits.instrument unit block nextLine register = .error e := by
  unfold instrument
  rw [hexit]
  rfl

/-- A block that can get a long exit gets it, and its label if it falls through. -/
theorem adds_instrument (edits : UnitEdits) (nextLine : Nat) (register : String) {exit : Exit}
    (hexit : block.exit unit = .ok exit) :
    ∃ edits', edits.instrument unit block nextLine register = .ok edits' ∧
      edits.main.Adds edits'.main (fun line =>
        { removed := block.tail.line == line && block.tail.isBranch
          before := if block.line = line then ["# INSTRUMENTED " ++ Text.decimal block.line] else []
          after := if block.tail.line = line then [exit.code register block.tail.line] else [] }) ∧
      edits'.labels = if exit.fallsThrough then
          edits.labels.before nextLine (Exit.fallthroughLabel block.tail.line ++ ":")
        else edits.labels := by
  unfold instrument
  rw [hexit]
  refine ⟨_, rfl, ?_, rfl⟩
  dsimp only
  have hcode := edits.main.adds_addAt block.tail.line
    { after := [exit.code register block.tail.line] }
  split
  -- the exit, the mark on the first line and the removal of the tail
  next hbranch =>
    refine ((hcode.trans (EditList.adds_addAt _ _ _)).trans (EditList.adds_addAt _ _ _)).congr
      fun line => ?_
    by_cases htail : block.tail.line = line <;> by_cases hfirst : block.line = line <;>
      simp [LineEdits.append, htail, hfirst, hbranch]
  next hbranch =>
    refine (hcode.trans (EditList.adds_addAt _ _ _)).congr fun line => ?_
    by_cases htail : block.tail.line = line <;> by_cases hfirst : block.line = line <;>
      simp [LineEdits.append, htail, hfirst, hbranch]

end UnitEdits

/-! ## The passes -/

namespace SourceUnit

variable (unit : SourceUnit) (register : String)

/-- What the first pass changes, and the first block that cannot get a long exit. -/
structure Relocates (placed : List PlacedBlock) (state state' : Relocating) : Prop where
  main : state.edits.main.Adds state'.edits.main fun line => .concat <| placed.map fun placed =>
    (placed.loadChange line).append (placed.exitChange register line unit.name)
  labels : state.edits.labels.Adds state'.edits.labels fun line =>
    .concat (placed.map (·.labelChange unit line))
  oneEach : state.edits.labels.OneEach → state'.edits.labels.OneEach
  instrumented : state'.instrumented =
    state.instrumented + placed.countP fun placed => (placed.exit? unit.name).isSome
  failure : state'.failure? = state.failure?.or (placed.findSome? (·.failure? unit.name))

/-- A block without a long exit has its references changed, and nothing else. -/
theorem relocates_of_no_exit (state : Relocating) {placed : PlacedBlock}
    (hnone : placed.exit? unit.name = none) :
    unit.Relocates register [placed] state { state with
      edits.main := state.edits.main.relocateReferences placed.block placed.crosses
      failure? := state.failure?.or (placed.failure? unit.name) } where
  main := (state.edits.main.adds_relocateReferences placed).congr fun line => by
    simp [PlacedBlock.exitChange, hnone]
  labels := (EditList.Adds.refl _).congr fun line => by simp [PlacedBlock.labelChange, hnone]
  oneEach := id
  instrumented := by simp [hnone]
  failure := by simp

/-- A block with a long exit gets it, and its label if it falls through. -/
theorem relocates_of_exit (state : Relocating) {placed : PlacedBlock} {exit : Exit}
    (hcrosses : placed.crosses = true) (hexit : placed.block.exit unit.name = .ok exit) :
    unit.Relocates register [placed] state
      (unit.relocateBlock register state placed.block placed.crosses).value := by
  have hloads := state.edits.main.adds_relocateReferences placed
  have hsome : placed.exit? unit.name = some exit := by
    simp [PlacedBlock.exit?, hcrosses, hexit, Except.toOption]
  obtain ⟨edits', heq, hmain, hlabels⟩ := UnitEdits.adds_instrument
    { state.edits with main := state.edits.main.relocateReferences placed.block placed.crosses }
    (unit.lineAfter placed.block) register hexit
  unfold relocateBlock
  dsimp only
  rw [if_pos hcrosses, heq]
  refine ⟨(hloads.trans hmain).congr fun line => ?_, ?_, ?_, ?_, ?_⟩
  · simp [PlacedBlock.exitChange, hsome]
  · show state.edits.labels.Adds edits'.labels _
    rw [hlabels]
    split
    -- an exit that falls through has its label put before the line behind
    next hfalls =>
      refine (EditList.adds_addAt _ _ _).congr fun line => ?_
      simp [PlacedBlock.labelChange, hsome, hfalls]
    next hfalls =>
      refine (EditList.Adds.refl _).congr fun line => ?_
      simp [PlacedBlock.labelChange, hsome, hfalls]
  · intro hone
    show edits'.labels.OneEach
    rw [hlabels]
    split
    · exact hone.addAt _ _
    · exact hone
  · simp [hsome]
  · simp [PlacedBlock.failure?, hcrosses, hexit]

/-- One block adds its own change, or fails. -/
theorem relocates_relocateBlock (state : Relocating) (placed : PlacedBlock) :
    unit.Relocates register [placed] state
      (unit.relocateBlock register state placed.block placed.crosses).value := by
  by_cases hcrosses : placed.crosses = true
  · cases hexit : placed.block.exit unit.name with
    | ok exit => exact unit.relocates_of_exit register state hcrosses hexit
    | error e =>
      -- the block that cannot get its exit is left as a failure, its edits as if it had none
      have hnone : placed.exit? unit.name = none := by
        simp [PlacedBlock.exit?, hexit, Except.toOption]
      have hrelocates := unit.relocates_of_no_exit register state hnone
      unfold relocateBlock
      dsimp only
      rw [if_pos hcrosses, UnitEdits.instrument_of_error hexit]
      simpa [PlacedBlock.failure?, hcrosses, hexit] using hrelocates
  · have hstays : placed.crosses = false := Bool.eq_false_iff.2 hcrosses
    have hnone : placed.exit? unit.name = none := by simp [PlacedBlock.exit?, hstays]
    have hrelocates := unit.relocates_of_no_exit register state hnone
    unfold relocateBlock
    dsimp only
    rw [if_neg hcrosses]
    simpa [PlacedBlock.failure?, hstays] using hrelocates

variable {unit register} {placed later : List PlacedBlock} {state state' state'' : Relocating}

/-- Two stretches of blocks add the changes of both. -/
theorem Relocates.trans (h : unit.Relocates register placed state state')
    (h' : unit.Relocates register later state' state'') :
    unit.Relocates register (placed ++ later) state state'' where
  main := (h.main.trans h'.main).congr fun line => by rw [List.map_append, LineEdits.concat_append]
  labels := (h.labels.trans h'.labels).congr fun line => by
    rw [List.map_append, LineEdits.concat_append]
  oneEach := h'.oneEach ∘ h.oneEach
  instrumented := by rw [h'.instrumented, h.instrumented, List.countP_append, Nat.add_assoc]
  failure := by rw [h'.failure, h.failure, List.findSome?_append, Option.or_assoc]

/-- The first pass over all blocks. -/
theorem relocates_foldl (placed : List PlacedBlock) (state : Relocating) :
    unit.Relocates register placed state <| placed.foldl (fun state placed =>
      (unit.relocateBlock register state placed.block placed.crosses).value) state := by
  induction placed generalizing state with
  | nil =>
    refine ⟨.refl _, .refl _, id, rfl, ?_⟩
    exact Option.or_none.symm
  | cons placed later ih =>
    exact (unit.relocates_relocateBlock register state placed).trans (ih _)

/-! ## Relocations -/

/-- A block where its graph places it. -/
def placeOf : Graph × BlockId × Block → PlacedBlock := fun (graph, id, block) =>
  { block, inRam := graph.inRam id, crosses := graph.needsInstrumentation id }

/-- The blocks of the unit, where the graphs place them. -/
def placedBlocks (unit : SourceUnit) (graphs : List Graph) : List PlacedBlock :=
  (blocksOf (graphs.filter (·.unit == unit.name))).map placeOf

/-- What all passes change about a line. -/
def changesAt (unit : SourceUnit) (register : String) (placed : List PlacedBlock) (line : Nat) :
    LineEdits :=
  (((LineEdits.concat (placed.map fun placed =>
      (placed.loadChange line).append (placed.exitChange register line unit.name))).append
    (.concat ((placed.filter (·.inRam)).map (·.ramChange register line)))).append
    (.concat (placed.map (·.markChange line unit.name)))).append
    (.concat (placed.map (·.labelChange unit line)))

/-- The state after the first pass. -/
def relocating (unit : SourceUnit) (register : String) (placed : List PlacedBlock) : Relocating :=
  placed.foldl (fun state placed =>
    (unit.relocateBlock register state placed.block placed.crosses).value) {}

/-- The edits after all passes. -/
def relocationEdits (unit : SourceUnit) (register : String) (placed : List PlacedBlock) :
    EditList :=
  let state := unit.relocating register placed
  let moved := (placed.filter (·.inRam)).foldl (fun edits placed =>
    (EditList.moveToRam edits unit.name placed.block register placed.crosses).value)
    state.edits.main
  let marked := placed.foldl (fun edits placed =>
    EditList.markStart edits unit.name placed.block) moved
  { state.edits with main := marked }.all

theorem relocates_relocating (placed : List PlacedBlock) :
    unit.Relocates register placed {} (unit.relocating register placed) :=
  relocates_foldl placed {}

/-- The second pass moves the blocks in RAM. -/
theorem adds_moves (edits : EditList) (unit register : String) (placed : List PlacedBlock) :
    edits.Adds (placed.foldl (fun edits placed =>
        (EditList.moveToRam edits unit placed.block register placed.crosses).value) edits)
      fun line => .concat (placed.map (·.ramChange register line)) :=
  EditList.Adds.foldl (fun edits placed => edits.adds_moveToRam unit register placed) placed edits

/-- The third pass marks all blocks. -/
theorem adds_marks (edits : EditList) (unit : String) (placed : List PlacedBlock) :
    edits.Adds (placed.foldl (fun edits placed => EditList.markStart edits unit placed.block) edits)
      fun line => .concat (placed.map (·.markChange line unit)) :=
  EditList.Adds.foldl (fun edits placed => edits.adds_markStart unit placed) placed edits

/-- What is done to a line is the sum of what the blocks do to it. -/
theorem atLine_relocationEdits (placed : List PlacedBlock) (line : Nat) :
    (unit.relocationEdits register placed).atLine line = unit.changesAt register placed line := by
  have hfirst : unit.Relocates register placed {} _ := relocates_relocating placed
  unfold relocationEdits changesAt UnitEdits.all
  rw [EditList.atLine_append _ (hfirst.oneEach List.nodup_nil), (adds_marks _ _ _).atLine,
    (adds_moves _ _ _ _).atLine, hfirst.main.atLine, hfirst.labels.atLine]
  show (((LineEdits.append {} _).append _).append _).append (LineEdits.append {} _) = _
  rw [LineEdits.empty_append, LineEdits.empty_append]

/-- Nothing goes to the data section. -/
theorem dataTexts_relocationEdits (placed : List PlacedBlock) :
    (unit.relocationEdits register placed).dataTexts = [] := by
  have hfirst : unit.Relocates register placed {} _ := relocates_relocating placed
  unfold relocationEdits UnitEdits.all
  rw [EditList.dataTexts_append, (adds_marks _ _ _).dataTexts, (adds_moves _ _ _ _).dataTexts,
    hfirst.main.dataTexts, hfirst.labels.dataTexts]
  rfl

/-- A relocation fails with the error of the first block that cannot get the long exit it needs; if
there is none, its edits are those of all passes. -/
theorem value_relocate (unit : SourceUnit) (register : String) (graphs : List Graph) :
    (unit.relocate register graphs).run.value =
      match (unit.placedBlocks graphs).findSome? (·.failure? unit.name) with
      | some e => .error e
      | none => .ok (unit.relocationEdits register (unit.placedBlocks graphs),
        { blocks := (unit.placedBlocks graphs).length
          inRam := (unit.placedBlocks graphs).countP (·.inRam)
          instrumented :=
            (unit.placedBlocks graphs).countP fun placed => (placed.exit? unit.name).isSome }) := by
  have hfirst : unit.Relocates register (unit.placedBlocks graphs) {} _ :=
    relocates_relocating (unit.placedBlocks graphs)
  have hfailure : (unit.relocating register (unit.placedBlocks graphs)).failure? = _ :=
    hfirst.failure
  have hinstrumented : (unit.relocating register (unit.placedBlocks graphs)).instrumented = _ :=
    hfirst.instrumented
  rw [Option.none_or] at hfailure
  rw [Nat.zero_add] at hinstrumented
  rw [← hfailure, ← hinstrumented]
  unfold relocate relocationEdits relocating placedBlocks
  generalize blocksOf (graphs.filter (·.unit == unit.name)) = blocks
  have hmoved : (blocks.map placeOf).filter (·.inRam) =
      (blocks.filter fun (graph, id, _) => graph.inRam id).map placeOf := List.filter_map
  have hcount : (blocks.map placeOf).countP (·.inRam) =
      (blocks.filter fun (graph, id, _) => graph.inRam id).length := by
    rw [List.countP_eq_length_filter, hmoved, List.length_map]
  rw [hmoved, hcount, List.length_map]
  simp only [List.foldl_map]
  -- neither pass can fail: a block without its long exit is kept in the state until the end
  rw [Attempt.value_bind_of_ok _ (Attempt.value_foldlM (g := fun state entry =>
      (unit.relocateBlock register state entry.2.2 (entry.1.needsInstrumentation entry.2.1)).value)
      (fun _ _ => rfl) blocks {}),
    Attempt.value_bind_of_ok _ (Attempt.value_foldlM (g := fun edits entry =>
      (EditList.moveToRam edits unit.name entry.2.2 register
        (entry.1.needsInstrumentation entry.2.1)).value) (fun _ _ => rfl) _ _)]
  dsimp only [placeOf]
  generalize blocks.foldl (fun state entry =>
    (unit.relocateBlock register state entry.2.2 (entry.1.needsInstrumentation entry.2.1)).value)
    ({} : Relocating) = state
  cases state.failure? <;> rfl

/-- A unit in which no block fails is rewritten. -/
theorem exists_value_relocate {graphs : List Graph}
    (hnone : (unit.placedBlocks graphs).findSome? (·.failure? unit.name) = none) :
    ∃ stats, (unit.relocate register graphs).run.value =
      .ok (unit.relocationEdits register (unit.placedBlocks graphs), stats) := by
  rw [value_relocate, hnone]
  exact ⟨_, rfl⟩

end SourceUnit

end RamOverlay
