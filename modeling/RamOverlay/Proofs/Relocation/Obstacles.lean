import RamOverlay.Proofs.Relocation.Crossings

/-!
# Exits that cannot be made long

A program is relocated unless a block crosses the boundary by an exit that has no long form: a
branch to a computed address, or on a condition without an inverse. Relocation goes on behind such a
block, so that all of them are reported, but then gives the first one as its error and no text.

* **`Block.exit_eq_error_iff`**: which exits have no long form, read off the tail.
* **`Program.value_relocate`**: the first pass keeps the first failure of each unit, and the failure
  of the first unit that has one becomes the error. So both levels together look for the first
  failure in the list of all blocks, which is what the induction on the units says.
* **`SourceUnit.Owns.successors_of_indirect`**: a jump to a computed address has no edges, so that
  it never crosses the boundary.
* **`Program.relocate_outcome`**: when a relocation fails, with which error, and what it counts.
-/

namespace RamOverlay

open Discovery

theorem Attempt.value_bind_of_error {ε α β : Type} {x : Attempt ε α} {e : ε} (f : α → Attempt ε β)
    (h : x.run.value = .error e) : (x >>= f).run.value = .error e := by
  rw [ExceptT.run_bind, Traced.value_bind, h]
  rfl

/-! ## Exits without a long form -/

namespace Instruction

/-- The tail has no long form: its target is computed, or it is taken on a condition that has no
inverse. -/
def Unreplaceable (tail : Instruction) : Prop :=
  tail.isBranch = true ∧ (tail.destination = .indirect ∨
    tail.isUnconditional = false ∧ tail.isCompareBranch = false ∧
      Thumb2.Condition.ofBranch? tail.operator = none)

instance (tail : Instruction) : Decidable tail.Unreplaceable :=
  inferInstanceAs (Decidable (_ ∧ _))

/-- Why a tail has no long form. -/
def obstacle (tail : Instruction) : String :=
  if tail.destination = .indirect then "branch target is not a label"
  else "condition has no supported inverse"

end Instruction

/-- A block has no exit exactly if its tail cannot be replaced, and the error says why. -/
theorem Block.exit_eq_error_iff {block : Block} {unit : String} {e : ExitError} :
    block.exit unit = .error e ↔
      block.tail.Unreplaceable ∧ e = block.exitError unit block.tail.obstacle := by
  unfold Block.exit Instruction.Unreplaceable Instruction.obstacle
  dsimp only
  cases hbranch : block.tail.isBranch with
  | false =>
    cases block.tail.isCompareBranch <;> simp [Instruction.isUnconditional, hbranch]
  | true =>
    by_cases hindirect : block.tail.destination = .indirect
    · simp [hindirect, @eq_comm _ e]
    · cases block.tail.isCompareBranch <;> cases block.tail.isUnconditional <;>
        cases Thumb2.Condition.ofBranch? block.tail.operator <;> simp [hindirect, @eq_comm _ e]

namespace PlacedBlock

/-- The block needs a long exit and cannot get one. -/
def Fails (placed : PlacedBlock) : Prop :=
  placed.crosses = true ∧ placed.block.tail.Unreplaceable

instance (placed : PlacedBlock) : Decidable placed.Fails := inferInstanceAs (Decidable (_ ∧ _))

variable {placed : PlacedBlock} {unit : String} {e : ExitError}

/-- A block fails if its exit crosses and it has none. -/
theorem failure?_eq_some_iff : placed.failure? unit = some e ↔
    placed.Fails ∧ e = placed.block.exitError unit placed.block.tail.obstacle := by
  unfold failure? Fails
  rw [and_assoc, ← Block.exit_eq_error_iff]
  cases placed.crosses with
  | false => simp
  | true => cases placed.block.exit unit <;> simp

theorem failure?_eq_none_iff : placed.failure? unit = none ↔ ¬ placed.Fails := by
  constructor
  · intro hnone hfails
    rw [failure?_eq_some_iff.2 ⟨hfails, rfl⟩] at hnone
    cases hnone
  · intro hfails
    refine Option.eq_none_iff_forall_ne_some.2 fun e he => hfails (failure?_eq_some_iff.1 he).1

/-- Where no block fails, the blocks with a long exit are those that cross the boundary. -/
theorem isSome_exit? (h : ¬ placed.Fails) : (placed.exit? unit).isSome = placed.crosses := by
  have hnone : placed.failure? unit = none := failure?_eq_none_iff.2 h
  unfold failure? at hnone
  unfold exit?
  cases hcrosses : placed.crosses with
  | false => rfl
  | true =>
    rw [hcrosses] at hnone
    cases hexit : placed.block.exit unit with
    | error e =>
      rw [hexit] at hnone
      cases hnone
    | ok exit => rfl

end PlacedBlock

/-! ## The first failure -/

namespace Program

variable (program : Program)

/-- The blocks of some units, by units, graphs and blocks. A graph knows its unit by the name. -/
def blocksOfUnits (graphs : List Graph) (units : List SourceUnit) :
    List (SourceUnit × PlacedBlock) :=
  units.flatMap fun unit => (unit.placedBlocks graphs).map (unit, ·)

/-- The blocks in the order in which they are rewritten, with their units. -/
def blocksByUnit : List (SourceUnit × PlacedBlock) :=
  blocksOfUnits program.graphs program.units

/-- Why a block of a unit cannot get the long exit that it needs. -/
def failureIn? (entry : SourceUnit × PlacedBlock) : Option ExitError :=
  entry.2.failure? entry.1.name

/-- How many blocks a unit has, how many are in RAM, and how many cross the boundary. -/
def statsOf (unit : SourceUnit) : RelocationStats :=
  let placed := unit.placedBlocks program.graphs
  { blocks := placed.length
    inRam := placed.countP (·.inRam)
    instrumented := placed.countP (·.crosses) }

/-- The unit with the edits of all passes. -/
def relocated (unit : SourceUnit) : RelocatedUnit :=
  { name := unit.name
    text := unit.render
      (unit.relocationEdits program.config.safeRegister (unit.placedBlocks program.graphs))
    stats := program.statsOf unit }

/-- A unit fails with the error of its first block that does, and otherwise gives its text. -/
theorem value_relocateUnit (unit : SourceUnit) :
    (program.relocateUnit unit).run.value =
      match (unit.placedBlocks program.graphs).findSome? (·.failure? unit.name) with
      | some e => .error e
      | none => .ok (program.relocated unit) := by
  unfold relocateUnit
  cases hfailure : (unit.placedBlocks program.graphs).findSome? (·.failure? unit.name) with
  | some e =>
    have hvalue := unit.value_relocate program.config.safeRegister program.graphs
    rw [hfailure] at hvalue
    rw [Attempt.value_bind_of_error _ hvalue]
  | none =>
    have hvalue := unit.value_relocate program.config.safeRegister program.graphs
    rw [hfailure] at hvalue
    rw [Attempt.value_bind_of_ok _ hvalue]
    -- without a failure the blocks that cross are those that got an exit
    have hcount : (unit.placedBlocks program.graphs).countP (fun p => (p.exit? unit.name).isSome) =
        (unit.placedBlocks program.graphs).countP (·.crosses) := by
      refine List.countP_congr fun p hp => ?_
      have hnone := List.findSome?_eq_none_iff.1 hfailure p hp
      rw [PlacedBlock.isSome_exit? (PlacedBlock.failure?_eq_none_iff.1 hnone)]
    rw [hcount]
    rfl

theorem findSome?_failureIn?_map (unit : SourceUnit) (placed : List PlacedBlock) :
    (placed.map (unit, ·)).findSome? failureIn? = placed.findSome? (·.failure? unit.name) :=
  List.findSome?_map ..

/-- The first unit with a failure fails with its first one, so together they fail with the first
one. -/
theorem value_firstError (units : List SourceUnit) :
    (firstError (units.map fun unit => (program.relocateUnit unit).run)).value =
      match (blocksOfUnits program.graphs units).findSome? failureIn? with
      | some e => .error e
      | none => .ok (units.map program.relocated) := by
  induction units with
  | nil => rfl
  | cons unit units ih =>
    rw [List.map_cons, firstError, Traced.value_bind, Traced.value_bind, ih, value_relocateUnit]
    unfold blocksOfUnits
    rw [List.flatMap_cons, List.findSome?_append, findSome?_failureIn?_map]
    -- all units are rewritten, but the first failure decides
    generalize (units.flatMap _).findSome? failureIn? = later
    cases (unit.placedBlocks program.graphs).findSome? (·.failure? unit.name) <;>
      cases later <;> rfl

/-- The program fails with the first failure of all, in the order of units and blocks. -/
theorem value_relocate :
    program.relocate.value =
      match program.blocksByUnit.findSome? failureIn? with
      | some e => .error (.exit e)
      | none => .ok (program.units.map program.relocated) := by
  unfold relocate blocksByUnit
  rw [Traced.value_bind, value_firstError]
  cases (blocksOfUnits program.graphs program.units).findSome? failureIn? <;> rfl

end Program

theorem SourceUnit.mem_placedBlocks {unit : SourceUnit} {graphs : List Graph}
    {placed : PlacedBlock} : placed ∈ unit.placedBlocks graphs ↔
      ∃ graph ∈ graphs, graph.unit = unit.name ∧ ∃ (id : BlockId) (block : Block),
        graph.block? id = some block ∧ placed = placeOf (graph, id, block) := by
  unfold placedBlocks
  simp only [mem_placeOf_blocksOf, List.mem_filter, beq_iff_eq, and_assoc]

theorem Program.mem_blocksByUnit {program : Program} {entry : SourceUnit × PlacedBlock} :
    entry ∈ program.blocksByUnit ↔
      entry.1 ∈ program.units ∧ entry.2 ∈ entry.1.placedBlocks program.graphs := by
  unfold blocksByUnit blocksOfUnits
  rw [List.mem_flatMap]
  constructor
  · rintro ⟨unit, hunit, hentry⟩
    obtain ⟨placed, hplaced, rfl⟩ := List.mem_map.1 hentry
    exact ⟨hunit, hplaced⟩
  · rintro ⟨hunit, hplaced⟩
    exact ⟨entry.1, hunit, List.mem_map.2 ⟨entry.2, hplaced, rfl⟩⟩

/-! ## Jumps to computed addresses -/

namespace SourceUnit

variable {unit : SourceUnit} {routines : RoutineLabels} {cut block : Block} {id : BlockId}
  {corrected graph : Graph} {graphs own : List Graph}

/-- A jump to a computed address has no edges. -/
theorem successors_of_indirect (hnatural : cut.tail.callClass = .natural)
    (hcorrected : Corrected unit routines id cut block)
    (hjump : block.tail.isUnconditional = true) (hindirect : block.tail.destination = .indirect) :
    block.successors = [] := by
  cases hcorrected with
  | jump hcall hlabel =>
    -- a call that became a jump goes to its label
    rw [cut.tail_jumpTo, Instruction.destination_suppressed hcall] at hindirect
    rw [hindirect] at hlabel
    cases hlabel
  | kept =>
    rw [isUnconditional_tail_linkedBlock _ id hnatural] at hjump
    refine List.eq_nil_iff_forall_not_mem.2 fun next hnext => ?_
    rcases mem_successors_linkedBlock hnext with hfalls | ⟨hcall, label, _, hlabel, -⟩
    · rw [(eq_of_mem_fallthrough hfalls).2.2] at hjump
      cases hjump
    · -- linking does not change where the tail goes
      have hsame : (linkedBlock unit routines (cutBlocks unit routines) id cut).tail.destination =
          cut.tail.destination := by
        rcases tail_linkedBlock (cutBlocks unit routines) id hnatural with heq | ⟨-, heq⟩
        · rw [heq]
        · rw [heq, Instruction.destination_forced hnatural]
      rw [← hsame, hindirect] at hlabel
      cases hlabel

/-- A jump to a computed address has no edge, so it crosses nothing. -/
theorem Owns.needsInstrumentation_of_indirect (h : unit.Owns routines corrected own)
    (hfresh : unit.Fresh) (hgraph : graph ∈ own) (hblock : graph.block? id = some block)
    (hjump : block.tail.isUnconditional = true) (hindirect : block.tail.destination = .indirect) :
    graph.needsInstrumentation id = false := by
  obtain ⟨n, hn⟩ := List.mem_iff_getElem?.1 hgraph
  obtain ⟨u, original, -, horiginal, hsame, hsuccessors⟩ := h.exists_block hn hblock
  obtain ⟨cut, hcut, hcorrected⟩ := h.isCorrected.exists_cut horiginal
  rw [Block.tail_eq_of_instructions hsame] at hjump hindirect
  -- such a tail neither falls through nor has a label, so it has no edge
  have hnone := successors_of_indirect (natural_tail hfresh (List.mem_of_getElem? hcut)) hcorrected
    hjump hindirect
  rw [Graph.successors_of_block? horiginal, hnone, List.map_nil, List.map_eq_nil_iff] at hsuccessors
  refine Bool.eq_false_iff.2 fun hcrosses => ?_
  obtain ⟨next, hnext, -⟩ := Graph.needsInstrumentation_iff.1 hcrosses
  rw [hsuccessors] at hnext
  cases hnext

end SourceUnit

/-! ## Relocations -/

namespace Program

variable {program : Program}

/-- The error is that of a block with no failure before it. -/
theorem relocate_eq_error_iff {e : ProgramError} : program.relocate.value = .error e ↔
    ∃ before unit placed after, program.blocksByUnit = before ++ (unit, placed) :: after ∧
      (∀ entry ∈ before, ¬ entry.2.Fails) ∧ placed.Fails ∧
        e = .exit (placed.block.exitError unit.name placed.block.tail.obstacle) := by
  rw [value_relocate]
  constructor
  · intro herror
    split at herror
    next first hfirst =>
      obtain rfl := Except.error.inj herror
      obtain ⟨before, ⟨unit, placed⟩, after, hblocks, hfailure, hbefore⟩ :=
        List.findSome?_eq_some_iff.1 hfirst
      obtain ⟨hfails, rfl⟩ := PlacedBlock.failure?_eq_some_iff.1 hfailure
      exact ⟨before, unit, placed, after, hblocks,
        fun entry hentry => PlacedBlock.failure?_eq_none_iff.1 (hbefore entry hentry), hfails, rfl⟩
    next => cases herror
  · rintro ⟨before, unit, placed, after, hblocks, hbefore, hfails, rfl⟩
    -- the block is the first to fail, in the order of the units and their blocks
    have hfirst : program.blocksByUnit.findSome? failureIn? =
        some (placed.block.exitError unit.name placed.block.tail.obstacle) :=
      List.findSome?_eq_some_iff.2 ⟨before, (unit, placed), after, hblocks,
        PlacedBlock.failure?_eq_some_iff.2 ⟨hfails, rfl⟩,
        fun entry hentry => PlacedBlock.failure?_eq_none_iff.2 (hbefore entry hentry)⟩
    rw [hfirst]

/-- There is an error if some block fails. -/
theorem exists_relocate_error_iff : (∃ e, program.relocate.value = .error e) ↔
    ∃ entry ∈ program.blocksByUnit, entry.2.Fails := by
  constructor
  · rintro ⟨e, he⟩
    obtain ⟨before, unit, placed, after, hblocks, -, hfails, -⟩ := relocate_eq_error_iff.1 he
    exact ⟨(unit, placed), hblocks ▸ by simp, hfails⟩
  · rintro ⟨entry, hentry, hfails⟩
    rw [value_relocate]
    cases hfirst : program.blocksByUnit.findSome? failureIn? with
    | some e => exact ⟨_, rfl⟩
    | none =>
      have hnone := List.findSome?_eq_none_iff.1 hfirst entry hentry
      exact absurd hfails (PlacedBlock.failure?_eq_none_iff.1 hnone)

/-- The routines of a unit are its graphs as they were built, with their loops. -/
theorem alike_routinesIn_iff {unit : SourceUnit} {routines : RoutineLabels}
    {built placed : List Graph} (hbuilt : (unit.routines routines).run.value = .ok built) :
    List.Forall₂ Graph.Alike (unit.routinesIn routines) placed ↔
      List.Forall₂ Graph.Alike built placed := by
  unfold SourceUnit.routinesIn
  rw [hbuilt]
  dsimp only
  rw [List.forall₂_map_left_iff]
  constructor
  · exact fun halike => halike.imp fun graph _ hsame => (Graph.alike_analyzeLoops graph).trans hsame
  · exact fun halike => halike.imp fun graph _ hsame =>
      (Graph.alike_analyzeLoops graph).symm.trans hsame

/-- The placed graphs with the name of a unit are its routines as they were built. -/
theorem IsPlacement.exists_built {graphs : List Graph} {unit : SourceUnit}
    (h : program.IsPlacement graphs) (hread : ∀ unit ∈ program.units, unit.Parsed)
    (hnames : (program.units.map (·.name)).Nodup) (hunit : unit ∈ program.units) :
    ∃ built, (unit.routines (RamOverlay.routineLabels program.units)).run.value = .ok built ∧
      List.Forall₂ Graph.Alike built (graphs.filter (·.unit == unit.name)) := by
  obtain ⟨built, hbuilt, -⟩ := exists_routines (hread unit hunit).fresh _
  exact ⟨built, hbuilt, (alike_routinesIn_iff hbuilt).1 (h.alike_filter hread hnames hunit)⟩

/-- A relocation fails exactly if a block of a unit crosses the boundary by an exit that has no long
form. The error is that of the first such block; else there is one text for each unit, in order,
with the counts of its blocks. In the graphs of a unit as they were built, wherever their blocks are
placed, a jump to a computed address needs no long exit, so that it is never such a block. -/
theorem relocate_outcome (program : Program) :
    ((∃ e, program.relocate.value = .error e) ↔
      ∃ unit ∈ program.units, ∃ graph ∈ program.graphs, graph.unit = unit.name ∧
        ∃ (id : BlockId) (block : Block), graph.block? id = some block ∧
          graph.needsInstrumentation id = true ∧ block.tail.Unreplaceable) ∧
    (∀ e, program.relocate.value = .error e ↔ ∃ before unit placed after,
      program.blocksByUnit = before ++ (unit, placed) :: after ∧
        (∀ entry ∈ before, ¬ entry.2.Fails) ∧ placed.Fails ∧
          e = .exit { unit := unit.name
                      line := placed.block.tail.line
                      insn := Text.strip placed.block.tail.text
                      reason := placed.block.tail.obstacle }) ∧
    ((∀ entry ∈ program.blocksByUnit, ¬ entry.2.Fails) → ∃ outputs,
      program.relocate.value = .ok outputs ∧
        outputs.map (·.name) = program.units.map (·.name) ∧
          outputs.map (·.stats) = program.units.map program.statsOf) ∧
    ∀ (unit : SourceUnit) (routines : RoutineLabels) (built placed : List Graph), unit.Parsed →
      (unit.routines routines).run.value = .ok built → List.Forall₂ Graph.Alike built placed →
        ∀ graph ∈ placed, ∀ (id : BlockId) (block : Block), graph.block? id = some block →
          block.tail.isUnconditional = true → block.tail.destination = .indirect →
            graph.needsInstrumentation id = false := by
  refine ⟨?_, fun e => relocate_eq_error_iff, fun hnone => ?_,
    fun unit routines built placed hparsed hbuilt halike graph hgraph id block hblock => ?_⟩
  · rw [exists_relocate_error_iff]
    constructor
    · rintro ⟨entry, hentry, hcrosses, htail⟩
      obtain ⟨hunit, hplaced⟩ := mem_blocksByUnit.1 hentry
      obtain ⟨graph, hgraph, hname, id, block, hblock, heq⟩ := SourceUnit.mem_placedBlocks.1 hplaced
      rw [heq] at hcrosses htail
      exact ⟨entry.1, hunit, graph, hgraph, hname, id, block, hblock, hcrosses, htail⟩
    · rintro ⟨unit, hunit, graph, hgraph, hname, id, block, hblock, hcrosses, htail⟩
      have hplaced := SourceUnit.mem_placedBlocks.2 ⟨graph, hgraph, hname, id, block, hblock, rfl⟩
      exact ⟨(unit, _), mem_blocksByUnit.2 ⟨hunit, hplaced⟩, hcrosses, htail⟩
  · refine ⟨program.units.map program.relocated, ?_, ?_, ?_⟩
    · have hfirst : program.blocksByUnit.findSome? failureIn? = none :=
        List.findSome?_eq_none_iff.2 fun entry hentry =>
          PlacedBlock.failure?_eq_none_iff.2 (hnone entry hentry)
      rw [value_relocate, hfirst]
    · rw [List.map_map]
      rfl
    · rw [List.map_map]
      rfl
  · have hown := (alike_routinesIn_iff hbuilt).2 halike
    obtain ⟨corrected, howns⟩ := SourceUnit.exists_owns hparsed.fresh hown
    exact howns.needsInstrumentation_of_indirect hparsed.fresh hgraph hblock

/-- The second branch is taken on a condition without an inverse. -/
def overflowBranch : SourceUnit :=
  (SourceUnit.parse "t.s"
    "\t.type\tf, %function\nf:\n\tbeq\t.L2\n\tbvs\t.L2\n\tbx\tlr\n.L2:\n\tbx\tlr\n").value

/-- The block at the label is in RAM. -/
def overflowPlaced : List Graph :=
  (RamOverlay.placeForced { forced := [⟨"t.s", 5⟩] } (builtGraphs [overflowBranch])).value.1

theorem isPlacement_overflowPlaced :
    ({ units := [overflowBranch] } : Program).IsPlacement overflowPlaced := by
  have hread : ∀ unit ∈ [overflowBranch], unit.Parsed := by
    intro unit hunit
    rw [List.mem_singleton.1 hunit]
    exact .parse _ _
  exact (isPlacement_builtGraphs hread (List.cons_ne_nil _ _)).placeForced _

/-- The first branch gets a long exit and the second one has none; with no block in RAM neither
needs one. The return in RAM needs none wherever the other blocks are. -/
theorem relocate_outcome_overflowBranch :
    let placed : Program := { units := [overflowBranch], graphs := overflowPlaced }
    let unplaced : Program := { units := [overflowBranch], graphs := builtGraphs [overflowBranch] }
    placed.relocate.value = .error (.exit
      ⟨"t.s", 3, "bvs .L2", "condition has no supported inverse"⟩) ∧
    (∃ outputs, unplaced.relocate.value = .ok outputs ∧
      outputs.map (·.stats) = [{ blocks := 4, inRam := 0, instrumented := 0 }]) ∧
    overflowBranch.Parsed ∧ ∃ graph ∈ overflowPlaced, ∃ (id : BlockId) (block : Block),
      graph.block? id = some block ∧ block.tail.isUnconditional = true ∧
        block.tail.destination = .indirect ∧ graph.inRam id = true ∧
          graph.needsInstrumentation id = false := by
  intro placed unplaced
  have hread : overflowBranch.Parsed := .parse _ _
  refine ⟨?_, ?_, hread, ?_⟩
  · refine ((relocate_outcome placed).2.1 _).2 ?_
    have hblocks : ∃ first ∈ placed.blocksByUnit.head?, ∃ second ∈ placed.blocksByUnit.tail.head?,
        ¬ first.2.Fails ∧ second.2.Fails ∧ second.1.name = "t.s" ∧
          second.2.block.tail.line = 3 ∧ Text.strip second.2.block.tail.text = "bvs .L2" ∧
            second.2.block.tail.obstacle = "condition has no supported inverse" := by
      decide +kernel
    obtain ⟨first, hhead, ⟨unit, second⟩, hnext, hfirst, hsecond, hname, hline, htext, hreason⟩ :=
      hblocks
    obtain ⟨others, hothers⟩ := List.head?_eq_some_iff.1 hhead
    rw [hothers] at hnext
    obtain ⟨rest, hrest⟩ := List.head?_eq_some_iff.1 hnext
    rw [List.tail_cons] at hrest
    refine ⟨[first], unit, second, rest, hrest ▸ hothers, ?_, hsecond, ?_⟩
    · intro entry hentry
      rwa [List.mem_singleton.1 hentry]
    · rw [hname, hline, htext, hreason]
  · have hnone : ∀ entry ∈ unplaced.blocksByUnit, ¬ entry.2.Fails := by decide +kernel
    obtain ⟨outputs, houtputs, -, hstats⟩ := (relocate_outcome unplaced).2.2.1 hnone
    refine ⟨outputs, houtputs, ?_⟩
    rw [hstats]
    decide +kernel
  · obtain ⟨built, hbuilt, halike⟩ := isPlacement_overflowPlaced.exists_built
      (fun unit hunit => List.mem_singleton.1 hunit ▸ hread) (by decide) List.mem_cons_self
    have hgraph : ∃ graph ∈ overflowPlaced.filter (·.unit == overflowBranch.name),
        ∃ block ∈ graph.block? 3, block.tail.isUnconditional = true ∧
          block.tail.destination = .indirect ∧ graph.inRam 3 = true := by
      decide +kernel
    obtain ⟨graph, hgraph, block, hblock, hjump, hindirect, hram⟩ := hgraph
    exact ⟨graph, (List.mem_filter.1 hgraph).1, 3, block, hblock, hjump, hindirect, hram,
      (relocate_outcome placed).2.2.2 overflowBranch _ built _ hread hbuilt halike
        graph hgraph 3 block hblock hjump hindirect⟩

end Program

end RamOverlay
