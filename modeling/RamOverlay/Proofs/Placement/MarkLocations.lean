import RamOverlay.Proofs.Placement.BlockNames
import RamOverlay.Proofs.Text.Numerals

/-!
# Marks locate their blocks

The mark at the start of a block holds the unit of the block and the line at which it starts. Read
as a location, it names the block, so that a block is forced to RAM by what its mark says.

* **`BlockLocation.read_text`**: a location is read back from its text. The unit may hold colons,
  since a line number does not.
* **`ProgramBlock.ofGraphs_map_mapNodes`**: what is changed in each node of a program is changed in
  each of its blocks.
* **`Program.filter_location`**: one block of a program starts at a line of a unit.
* **`Program.placeForced_of_mark`**: the location in the mark of a block forces that block to RAM,
  and no other one.
-/

namespace RamOverlay

/-- A place is read back, whatever colons its unit has. -/
theorem BlockLocation.read_text {location : BlockLocation} (hunit : location.unit ≠ "")
    (hline : location.line < Text.doubleLimit) : read location.text = .ok location := by
  have htext : location.text.toList =
      location.unit.toList ++ ':' :: (Text.decimal location.line).toList := by
    simp [text]
  -- no digit is a colon, so that the last colon is the one behind the unit
  have hcolon : ':' ∉ (Text.decimal location.line).toList := fun hmem =>
    absurd (Text.isDigit_of_mem_decimal _ hmem) (by decide)
  have hnumber :
      Text.natural? Text.doubleLimit (Text.decimal location.line).toList = some location.line :=
    Text.natural?_eq_some_iff.2
      ⟨_, .inl rfl, Text.digits?_eq_some_iff.1 (Text.digits?_decimal _), hline⟩
  have hread : read? location.text = some location := by
    unfold read?
    rw [htext, Text.cutLast_append_cons hcolon]
    simp [hunit, hnumber]
  unfold read
  rw [hread]

namespace Graph

/-- No block is placed in RAM. -/
def Unplaced (graph : Graph) : Prop := ∀ node ∈ graph.nodes, node.placement = {}

theorem unplaced_ofBlocks (unit : String) (blocks : List Block) :
    (ofBlocks unit blocks).Unplaced := by
  intro node hnode
  obtain ⟨block, -, rfl⟩ := List.mem_map.1 (List.mem_toArray.1 hnode)
  rfl

theorem Unplaced.mapNodes {graph : Graph} {f : BlockId → Node → Node} (h : graph.Unplaced)
    (hf : ∀ id node, (f id node).placement = node.placement) : (graph.mapNodes f).Unplaced := by
  intro node hnode
  obtain ⟨id, hid, rfl⟩ := Array.mem_mapIdx.1 hnode
  rw [hf]
  exact h _ (Array.getElem_mem hid)

theorem nodes_withStarts (graph : Graph) (labels : RoutineLabels) :
    (graph.withStarts labels).value.nodes = graph.nodes := by
  unfold withStarts
  dsimp only
  split <;> rfl

/-- Nothing is placed before a decision is made. -/
theorem unplaced_of_mem_partition {graph routine : Graph} {labels : RoutineLabels}
    (h : routine ∈ (graph.partition labels).value) : routine.Unplaced := by
  obtain ⟨number, rfl⟩ := eq_routine_of_mem_partition h
  intro node hnode
  rw [routine, nodes_withStarts] at hnode
  exact unplaced_ofBlocks _ _ node hnode

theorem isSome_blockAtLine? {graph : Graph} {id : BlockId} {node : Node}
    (hnode : graph.nodes[id]? = some node) :
    (graph.blockAtLine? node.block.line).isSome = true := by
  rw [blockAtLine?, Array.findIdx?_isSome, Array.any_eq_true']
  exact ⟨node, Array.mem_of_getElem? hnode, beq_self_eq_true _⟩

end Graph

namespace ProgramBlock

/-- The unit of a block and the line at which it starts. -/
def location (b : ProgramBlock) : BlockLocation := ⟨b.graph.unit, b.block.line⟩

theorem ofGraph_mapNodes (routine : Nat) (graph : Graph) (f : BlockId → Node → Node) :
    ofGraph routine (graph.mapNodes f) = (ofGraph routine graph).map fun b =>
      { b with graph := graph.mapNodes f, node := f b.id b.node } := by
  refine List.ext_getElem? fun id => ?_
  rw [getElem?_ofGraph, List.getElem?_map, getElem?_ofGraph, Graph.mapNodes, Array.getElem?_mapIdx,
    Option.map_map, Option.map_map]
  rfl

/-- A change to each node, which may look at the graph, changes each block. -/
theorem ofGraphs_map_mapNodes (f : Graph → BlockId → Node → Node) (graphs : List Graph) :
    ofGraphs (graphs.map fun graph => graph.mapNodes (f graph)) = (ofGraphs graphs).map fun b =>
      { b with graph := b.graph.mapNodes (f b.graph), node := f b.graph b.id b.node } := by
  unfold ofGraphs
  generalize 0 = routine
  induction graphs generalizing routine with
  | nil => rfl
  | cons graph graphs ih =>
    rw [List.map_cons, ofGraphsFrom_cons, ofGraphsFrom_cons, List.map_append, ih, ofGraph_mapNodes]
    refine congrArg (· ++ _) (List.map_congr_left fun b hb => ?_)
    obtain ⟨id, node, -, rfl⟩ := mem_ofGraph.1 hb
    rfl

theorem node_of_mem_ofGraphs {graphs : List Graph} {b : ProgramBlock} (hb : b ∈ ofGraphs graphs) :
    b.graph ∈ graphs ∧ b.graph.nodes[b.id]? = some b.node := by
  obtain ⟨⟨graph, routine⟩, hgraph, hb⟩ := List.mem_flatMap.1 hb
  obtain ⟨id, node, hnode, rfl⟩ := mem_ofGraph.1 hb
  exact ⟨List.fst_mem_of_mem_zipIdx hgraph, hnode⟩

theorem block_ofGraph (routine : Nat) (graph : Graph) :
    (ofGraph routine graph).map block = graph.blocks := by
  refine List.ext_getElem? fun k => ?_
  rw [List.getElem?_map, getElem?_ofGraph, Graph.blocks, List.getElem?_map, Array.getElem?_toList,
    Option.map_map]
  rfl

/-- What is counted graph by graph is counted block by block. -/
theorem totalOf_countP (p : String → Block → Bool) (graphs : List Graph) :
    totalOf (fun graph : Graph => graph.blocks.countP (p graph.unit)) graphs =
      (ofGraphs graphs).countP fun b => p b.graph.unit b.block := by
  unfold ofGraphs
  generalize 0 = routine
  induction graphs generalizing routine with
  | nil => rfl
  | cons graph graphs ih =>
    rw [ofGraphsFrom_cons, List.countP_append, ← ih, totalOf_cons, ← block_ofGraph routine graph,
      List.countP_map]
    refine congrArg (· + _) (List.countP_congr fun b hb => ?_)
    obtain ⟨id, node, -, rfl⟩ := mem_ofGraph.1 hb
    rfl

end ProgramBlock

namespace Program

open ProgramBlock

variable {program built : Program} {graphs : List Graph}

/-- A build places no block in RAM. -/
theorem unplaced_of_mem_builtGraphs {units : List SourceUnit} {graph : Graph}
    (hread : ∀ unit ∈ units, unit.Parsed) (hgraph : graph ∈ builtGraphs units) :
    graph.Unplaced := by
  obtain ⟨unit, hunit, hroutine⟩ := List.mem_flatMap.1 hgraph
  have hfresh := (hread unit hunit).fresh
  obtain ⟨corrected, hcorrected, -⟩ := exists_corrected hfresh (routineLabels units)
  unfold SourceUnit.routinesIn at hroutine
  rw [value_routines hfresh hcorrected] at hroutine
  obtain ⟨part, hpart, rfl⟩ := List.mem_map.1 hroutine
  exact (Graph.unplaced_of_mem_partition hpart).mapNodes fun _ _ => rfl

/-- One block of a program starts at a line of a unit. -/
theorem filter_location (hread : ∀ unit ∈ program.units, unit.Parsed)
    (hnames : (program.units.map (·.name)).Nodup) (hplaced : program.IsPlacement graphs)
    {b : ProgramBlock} (hb : b ∈ ofGraphs graphs) :
    ((ofGraphs graphs).filter fun c =>
      c.graph.unit == b.graph.unit && c.block.line == b.block.line) = [b] := by
  have hpairs := pairwise_line_ne hread hnames hplaced
  obtain ⟨before, after, hblocks⟩ := List.append_of_mem hb
  rw [hblocks] at hpairs ⊢
  obtain ⟨-, hafter, hbefore⟩ := List.pairwise_append.1 hpairs
  -- neither a block before `b` nor one behind it starts there
  have hnone : ∀ others : List ProgramBlock,
      (∀ c ∈ others, c.graph.unit = b.graph.unit → c.block.line ≠ b.block.line) →
        (others.filter fun c => c.graph.unit == b.graph.unit && c.block.line == b.block.line)
          = [] := by
    intro others hothers
    refine List.filter_eq_nil_iff.2 fun c hc htrue => ?_
    rw [Bool.and_eq_true, beq_iff_eq, beq_iff_eq] at htrue
    exact hothers c hc htrue.1 htrue.2
  rw [List.filter_append, List.filter_cons_of_pos (by simp),
    hnone before fun c hc => hbefore c hc b List.mem_cons_self,
    hnone after fun c hc hunit hline =>
      (List.pairwise_cons.1 hafter).1 c hc hunit.symm hline.symm,
    List.nil_append]

/-- A block starts at the forced location, so that nothing is reported. -/
theorem unmatched_location {b : ProgramBlock} (hb : b ∈ ofGraphs graphs) {config : Config}
    (hforced : config.forced = [b.location]) : config.unmatched graphs = [] := by
  obtain ⟨hgraph, hnode⟩ := node_of_mem_ofGraphs hb
  have hline : (b.graph.blockAtLine? b.block.line).isSome = true :=
    Graph.isSome_blockAtLine? hnode
  unfold Config.unmatched
  rw [hforced, location, List.filter_eq_nil_iff, List.forall_mem_singleton, Bool.not_eq_true,
    Bool.not_eq_false', List.any_eq_true]
  exact ⟨b.graph, hgraph, by rw [beq_self_eq_true, hline]; rfl⟩

/-- The block at the one forced location is placed in RAM, and no other one. -/
theorem placeForced_location (hread : ∀ unit ∈ program.units, unit.Parsed)
    (hnames : (program.units.map (·.name)).Nodup) (hbuild : program.build.run.value = .ok built)
    {b : ProgramBlock} (hb : b ∈ ofGraphs built.graphs) {config : Config}
    (hforced : config.forced = [b.location]) : ∃ graphs,
    RamOverlay.placeForced config built.graphs =
        { value := (graphs, 1), events := [.forcedPlaced 1] } ∧
      List.Forall₂ Graph.Alike built.graphs graphs ∧
      ((ofGraphs graphs).filter (·.node.placement.inRam)).map (fun c => (c.routine, c.id)) =
        [(b.routine, b.id)] := by
  have hplaced := isPlacement_of_build hbuild
  have hisForced : ∀ unit line, config.isForced unit line =
      (unit == b.graph.unit && line == b.block.line) := by
    intro unit line
    rw [Config.isForced, hforced, location, Bool.eq_iff_iff]
    simp
  have hfilter := filter_location hread hnames hplaced hb
  have hcount : totalOf (fun graph : Graph =>
      graph.blocks.countP fun block => config.isForced graph.unit block.line) built.graphs = 1 := by
    have htotal := totalOf_countP (fun unit block => config.isForced unit block.line) built.graphs
    simp only [hisForced] at htotal ⊢
    rw [htotal, List.countP_eq_length_filter, hfilter]
    rfl
  refine ⟨built.graphs.map fun graph : Graph => graph.placeForced config, ?_,
    alike_placeForced config built.graphs, ?_⟩
  · unfold RamOverlay.placeForced Config.unmatchedEvents
    rw [hcount, unmatched_location hb hforced]
    rfl
  · unfold Graph.placeForced
    rw [ofGraphs_map_mapNodes, List.filter_map, List.map_map]
    refine congrArg (List.map _) ((List.filter_congr fun c hc => ?_).trans hfilter)
    -- no block was in RAM before, so that those in RAM are the forced ones
    obtain ⟨hgraph, hnode⟩ := node_of_mem_ofGraphs hc
    have hunplaced := unplaced_of_mem_builtGraphs hread (graphs_of_build hread hbuild ▸ hgraph)
    have hnowhere : c.node.placement.inRam = false := by
      rw [hunplaced _ (Array.mem_of_getElem? hnode)]
    rw [← hisForced]
    show (if config.isForced c.graph.unit c.block.line then _ else c.node).placement.inRam = _
    split
    next h => exact h.symm
    next h => rw [hnowhere, Bool.eq_false_iff.2 h]

/-- The mark at the start of a block holds the location of the block, which is read back as it is,
whatever characters are in the name of the unit. If it is the one location that is forced, the block
is placed in RAM and no other block of the program is. The lines of a text in memory are no more
than a machine word counts. -/
theorem placeForced_of_mark (hread : ∀ unit ∈ program.units, unit.Parsed)
    (hnames : (program.units.map (·.name)).Nodup) (hsome : ∀ unit ∈ program.units, unit.name ≠ "")
    (hlines : ∀ unit ∈ program.units, unit.lines.length ≤ Text.doubleLimit)
    (hbuild : program.build.run.value = .ok built) {b : ProgramBlock}
    (hb : b ∈ ofGraphs built.graphs) :
    (∀ edits : EditList, edits.markStart b.graph.unit b.block =
      if b.block.first.isLabel then edits.after b.block.line ("# break " ++ b.location.text)
      else edits.before b.block.line ("# break " ++ b.location.text)) ∧
    BlockLocation.read b.location.text = .ok b.location ∧
    ∀ config : Config, config.forced = [b.location] → ∃ graphs,
      RamOverlay.placeForced config built.graphs =
          { value := (graphs, 1), events := [.forcedPlaced 1] } ∧
        List.Forall₂ Graph.Alike built.graphs graphs ∧
        ((ofGraphs graphs).filter (·.node.placement.inRam)).map (fun c => (c.routine, c.id)) =
          [(b.routine, b.id)] := by
  have hplaced := isPlacement_of_build hbuild
  obtain ⟨unit, hunit, hname⟩ := exists_unit hread hplaced hb
  obtain ⟨u, hu⟩ := exists_isBlock hread hnames hplaced hunit hb hname
  have hline : b.location.line < Text.doubleLimit :=
    Nat.lt_of_lt_of_le (hu.line_lt (hread unit hunit) List.mem_cons_self) (hlines unit hunit)
  have hfilled : b.location.unit ≠ "" := fun hempty =>
    hsome unit hunit (hname.symm.trans hempty)
  refine ⟨fun edits => ?_, BlockLocation.read_text hfilled hline, fun config hforced =>
    placeForced_location hread hnames hbuild hb hforced⟩
  unfold EditList.markStart BlockLocation.text location
  simp only [String.append_assoc]

/-- The name of the second unit reads as a location in the first. -/
def colonTwins : Program :=
  { units := [
      (SourceUnit.parse "a"
        ("\t.type\tf, %function\nf:\n\tcmp\tr0, #0\n\tbeq\t.L2\n\tmovs\tr0, #1\n"
          ++ ".L2:\n\tbx\tlr\n")).value,
      (SourceUnit.parse "a:4"
        ("\t.type\tg, %function\ng:\n\tcmp\tr0, #0\n\tbeq\t.L2\n\tmovs\tr0, #1\n"
          ++ ".L2:\n\tbx\tlr\n")).value] }

/-- The block behind the branch of the second unit is forced by its mark. -/
theorem placeForced_of_mark_colonTwins :
    (∀ unit ∈ colonTwins.units, unit.Parsed) ∧ (colonTwins.units.map (·.name)).Nodup ∧
    (∀ unit ∈ colonTwins.units, unit.name ≠ "") ∧
    (∀ unit ∈ colonTwins.units, unit.lines.length ≤ Text.doubleLimit) ∧
    ∃ built b, colonTwins.build.run.value = .ok built ∧ b ∈ ofGraphs built.graphs ∧
      (b.routine, b.id) = (1, 1) ∧
      (∀ edits : EditList, edits.markStart b.graph.unit b.block = edits.before 4 "# break a:4:4") ∧
      BlockLocation.read "a:4:4" = .ok ⟨"a:4", 4⟩ ∧
      ∃ graphs, RamOverlay.placeForced { forced := [⟨"a:4", 4⟩] } built.graphs =
          { value := (graphs, 1), events := [.forcedPlaced 1] } ∧
        ((ofGraphs graphs).filter (·.node.placement.inRam)).map (fun c => (c.routine, c.id)) =
          [(1, 1)] := by
  have hread : ∀ unit ∈ colonTwins.units, unit.Parsed := by
    intro unit hunit
    simp only [colonTwins, List.mem_cons, List.not_mem_nil, or_false] at hunit
    rcases hunit with rfl | rfl
    · exact .parse _ _
    · exact .parse _ _
  have hnames : (colonTwins.units.map (·.name)).Nodup := by decide +kernel
  have hsome : ∀ unit ∈ colonTwins.units, unit.name ≠ "" := by decide +kernel
  have hfew : ∀ unit ∈ colonTwins.units, unit.lines.length ≤ 7 := by decide +kernel
  have hlines : ∀ unit ∈ colonTwins.units, unit.lines.length ≤ Text.doubleLimit :=
    fun unit hunit => Nat.le_trans (hfew unit hunit) (by decide)
  obtain ⟨built, hbuild⟩ : ∃ built, colonTwins.build.run.value = .ok built :=
    ⟨_, value_build colonTwins (by simp [colonTwins]) fun unit hunit => (hread unit hunit).fresh⟩
  have hblock : ∃ b ∈ ofGraphs (builtGraphs colonTwins.units), (b.routine, b.id) = (1, 1) ∧
      b.graph.unit = "a:4" ∧ b.block.line = 4 ∧ b.block.first.isLabel = false := by
    decide +kernel
  rw [← graphs_of_build hread hbuild] at hblock
  obtain ⟨b, hb, hplace, hunit, hline, hlabel⟩ := hblock
  have hlocation : b.location = ⟨"a:4", 4⟩ := by rw [location, hunit, hline]
  obtain ⟨hmark, htext, hforced⟩ := placeForced_of_mark hread hnames hsome hlines hbuild hb
  obtain ⟨graphs, hvalue, -, hram⟩ := hforced { forced := [⟨"a:4", 4⟩] } (by rw [hlocation])
  rw [hlocation] at hmark htext
  rw [hlabel, hline] at hmark
  refine ⟨hread, hnames, hsome, hlines, built, b, hbuild, hb, hplace, hmark, htext, graphs, hvalue,
    ?_⟩
  rw [hram, hplace]

end Program

end RamOverlay
