import Mathlib.Data.List.Pairwise
import RamOverlay.Placement.Decision
import RamOverlay.Proofs.Placement.ExportedProblem
import RamOverlay.Proofs.Relocation.Layout

/-!
# When names identify blocks

A block is known to the solver by a name: what its unit is called there, an underscore, and its
label or the number of its line. Two blocks of a program can have one name, although units have
distinct names and no unit defines a label twice.

* **`ProgramBlock.Clash`**: the ways in which that happens. A label reads as the line of another
  block of the unit; two units are called the same; or an underscore in a label is taken for the one
  behind the unit.
* **`pairwise_apart`**: different blocks of a unit differ in their lines, and in their labels.
* **`names_identify_iff`**: names identify blocks if and only if no two blocks clash.
-/

namespace RamOverlay

/-- The later of two underscores at which a text is parted. -/
theorem exists_of_underscore_le {s t s' t' : String} {cs : List Char}
    (hs : s'.toList = s.toList ++ cs) (ht : '_' :: t.toList = cs ++ '_' :: t'.toList) :
    (s = s' ∧ t = t') ∨ ∃ x, s' = s ++ "_" ++ x ∧ t = x ++ "_" ++ t' := by
  cases cs with
  | nil =>
    rw [List.append_nil] at hs
    exact .inl ⟨(String.toList_inj.1 hs).symm, String.toList_inj.1 (List.cons.inj ht).2⟩
  | cons c cs =>
    -- what is between the two underscores goes to one side or to the other
    obtain ⟨rfl, htail⟩ := List.cons.inj ht
    refine .inr ⟨String.ofList cs, ?_, ?_⟩
    · rw [← String.toList_inj, hs]
      simp
    · rw [← String.toList_inj, htail]
      simp

/-- Two ways to part a text at an underscore. -/
theorem append_underscore_eq_iff {s t s' t' : String} :
    s ++ "_" ++ t = s' ++ "_" ++ t' ↔ (s = s' ∧ t = t') ∨
      (∃ x, s' = s ++ "_" ++ x ∧ t = x ++ "_" ++ t') ∨
      ∃ x, s = s' ++ "_" ++ x ∧ t' = x ++ "_" ++ t := by
  constructor
  · intro h
    have hlists := congrArg String.toList h
    simp only [String.toList_append, List.append_assoc] at hlists
    -- one of the two underscores is not behind the other
    rcases List.append_eq_append_iff.1 hlists with ⟨cs, hs, ht⟩ | ⟨cs, hs, ht⟩
    · exact (exists_of_underscore_le hs ht).imp_right .inl
    · exact (exists_of_underscore_le hs ht).imp (fun heq => ⟨heq.1.symm, heq.2.symm⟩) .inr
  · rintro (⟨rfl, rfl⟩ | ⟨x, rfl, rfl⟩ | ⟨x, rfl, rfl⟩)
    · rfl
    · simp only [String.append_assoc]
    · simp only [String.append_assoc]

namespace ProgramBlock

/-- What the name of the block has behind its unit. -/
def tag (b : ProgramBlock) : String :=
  match b.block.label? with
  | some label => label
  | none => Text.decimal b.block.line

theorem name_eq (b : ProgramBlock) : b.name = Graph.symbolName b.graph.unit ++ "_" ++ b.tag := rfl

/-- Why two blocks of a program have one name. -/
inductive Clash (b c : ProgramBlock) : Prop where
  /-- The label of a block reads as the line of another block of the unit. -/
  | numeral (hunit : b.graph.unit = c.graph.unit)
      (hlabel : b.block.label? = some (Text.decimal c.block.line)) (hline : c.block.label? = none)
  /-- Two units are called the same. -/
  | units (hunit : b.graph.unit ≠ c.graph.unit)
      (hsymbol : Graph.symbolName b.graph.unit = Graph.symbolName c.graph.unit)
      (htag : b.tag = c.tag)
  /-- A label goes on as another unit does. -/
  | joined (x : String)
      (hsymbol : Graph.symbolName c.graph.unit = Graph.symbolName b.graph.unit ++ "_" ++ x)
      (htag : b.tag = x ++ "_" ++ c.tag)

/-- Blocks that clash share a name. -/
theorem Clash.name_eq {b c : ProgramBlock} (h : b.Clash c) : b.name = c.name := by
  rw [ProgramBlock.name_eq, ProgramBlock.name_eq]
  cases h with
  | numeral hunit hlabel hline => simp [tag, hunit, hlabel, hline]
  | units _ hsymbol htag => rw [hsymbol, htag]
  | joined x hsymbol htag => rw [hsymbol, htag]; simp [String.append_assoc]

/-- Different blocks of a unit. -/
structure Apart (b c : ProgramBlock) : Prop where
  line : b.block.line ≠ c.block.line
  label : ∀ label, b.block.label? = some label → c.block.label? ≠ some label

/-- Blocks with one name clash. -/
theorem clash_of_name_eq {b c : ProgramBlock} (hname : b.name = c.name)
    (hapart : b.graph.unit = c.graph.unit → b.Apart c) : b.Clash c ∨ c.Clash b := by
  rw [ProgramBlock.name_eq, ProgramBlock.name_eq, append_underscore_eq_iff] at hname
  -- the underscore between the parts is the same in both names, or it is inside one of the parts
  rcases hname with ⟨hsymbol, htag⟩ | ⟨x, hsymbol, htag⟩ | ⟨x, hsymbol, htag⟩
  · by_cases hunit : b.graph.unit = c.graph.unit
    · have happart := hapart hunit
      unfold tag at htag
      cases hb : b.block.label? with
      | none =>
        cases hc : c.block.label? with
        | none =>
          simp only [hb, hc] at htag
          exact absurd (Text.decimal_injective htag) happart.line
        | some label =>
          simp only [hb, hc] at htag
          exact .inr (.numeral hunit.symm (by rw [hc, htag]) hb)
      | some label =>
        cases hc : c.block.label? with
        | none =>
          simp only [hb, hc] at htag
          exact .inl (.numeral hunit (by rw [hb, htag]) hc)
        | some other =>
          simp only [hb, hc] at htag
          exact absurd (by rw [hc, htag]) (happart.label label hb)
    · exact .inl (.units hunit hsymbol htag)
  · exact .inl (.joined x hsymbol htag)
  · exact .inr (.joined x hsymbol htag)

theorem not_clash_self (b : ProgramBlock) : ¬ b.Clash b := by
  rintro (⟨-, hlabel, hline⟩ | ⟨hunit, -, -⟩ | ⟨x, hsymbol, -⟩)
  · rw [hline] at hlabel
    cases hlabel
  · exact hunit rfl
  · have hlength := congrArg String.length hsymbol
    rw [String.length_append, String.length_append] at hlength
    have hone : ("_" : String).length = 1 := by decide
    omega

end ProgramBlock

/-! ## The blocks of a unit -/

section Unit

variable {unit : SourceUnit} {routines : RoutineLabels} {u v : BlockId} {block block' : Block}

/-- An entry is known by its label if no label is defined twice. -/
theorem eq_of_definesLabel_of_nodup (hlabels : unit.definedLabels.Nodup) {label : String}
    {insn insn' : Instruction} (hinsn : insn ∈ unit.instructions)
    (hinsn' : insn' ∈ unit.instructions) (hdefines : insn.definesLabel label = true)
    (hdefines' : insn'.definesLabel label = true) : insn = insn' := by
  -- the labels are those of the entries, in their order, so no two entries share one
  have hpairs : unit.instructions.Pairwise fun insn insn' =>
      ∀ label, insn.definesLabel label = true → ¬ insn'.definesLabel label = true := by
    unfold SourceUnit.definedLabels List.Nodup at hlabels
    rw [List.pairwise_filterMap, List.pairwise_filter] at hlabels
    refine hlabels.imp fun {insn insn'} hdiffers label h h' => ?_
    obtain ⟨his, hlabel⟩ := Bool.and_eq_true_iff.1 h
    obtain ⟨his', hlabel'⟩ := Bool.and_eq_true_iff.1 h'
    exact hdiffers his his' label (eq_of_beq hlabel) label (eq_of_beq hlabel') rfl
  have hsymm : Std.Symm fun insn insn' : Instruction =>
      ∀ label, insn.definesLabel label = true → ¬ insn'.definesLabel label = true :=
    ⟨fun _ _ h label hdefines' hdefines => h label hdefines hdefines'⟩
  by_contra hne
  exact hpairs.forall hinsn hinsn' hne label hdefines hdefines'

/-- Two blocks of a unit begin on different lines. -/
theorem line_ne_of_place_ne (hparsed : unit.Parsed) (h : unit.IsBlock routines u block)
    (h' : unit.IsBlock routines v block') (hne : u ≠ v) : block.line ≠ block'.line := by
  rcases Nat.lt_or_gt_of_ne hne with hlt | hlt
  · exact Nat.ne_of_lt (h.line_lt_line hparsed h' hlt List.mem_cons_self List.mem_cons_self)
  · exact Nat.ne_of_gt (h'.line_lt_line hparsed h hlt List.mem_cons_self List.mem_cons_self)

/-- A label that is defined once begins one block. -/
theorem label?_ne_of_line_ne (hparsed : unit.Parsed) (hlabels : unit.definedLabels.Nodup)
    (h : unit.IsBlock routines u block) (h' : unit.IsBlock routines v block')
    (hne : block.line ≠ block'.line) {label : String} (hlabel : block.label? = some label) :
    block'.label? ≠ some label := by
  intro hlabel'
  have hfirst := List.mem_of_getElem? (h.getElem?_address hparsed.fresh List.mem_cons_self)
  have hfirst' := List.mem_of_getElem? (h'.getElem?_address hparsed.fresh List.mem_cons_self)
  have hsame := eq_of_definesLabel_of_nodup hlabels hfirst hfirst'
    (Block.label?_eq_some_iff.1 hlabel) (Block.label?_eq_some_iff.1 hlabel')
  have hline := congrArg Instruction.line hsame
  exact hne hline

end Unit

/-! ## The blocks of a program -/

namespace ProgramBlock

theorem name_ofGraph (routine : Nat) (graph : Graph) :
    (ofGraph routine graph).map name = graph.blocks.map (Graph.nameOf graph.unit) := by
  refine List.ext_getElem? fun k => ?_
  rw [List.getElem?_map, getElem?_ofGraph, Graph.blocks, List.map_map, List.getElem?_map,
    Array.getElem?_toList, Option.map_map]
  rfl

theorem name_ofGraphs (graphs : List Graph) :
    (ofGraphs graphs).map name = Decision.blockNames graphs := by
  unfold ofGraphs Decision.blockNames
  generalize 0 = routine
  induction graphs generalizing routine with
  | nil => rfl
  | cons graph graphs ih =>
    rw [ofGraphsFrom_cons, List.map_append, ih, name_ofGraph, List.flatMap_cons]

theorem map_ofGraphs (graphs : List Graph) :
    (ofGraphs graphs).map (fun b => (b.graph, b.id, b.block)) = SourceUnit.blocksOf graphs := by
  unfold ofGraphs SourceUnit.blocksOf
  generalize 0 = routine
  induction graphs generalizing routine with
  | nil => rfl
  | cons graph graphs ih =>
    rw [ofGraphsFrom_cons, List.map_append, ih, List.flatMap_cons, ofGraph, List.map_map]
    rfl

theorem blocksOf_filter (graphs : List Graph) (p : Graph → Bool) :
    SourceUnit.blocksOf (graphs.filter p) = (SourceUnit.blocksOf graphs).filter (p ·.1) := by
  induction graphs with
  | nil => rfl
  | cons graph graphs ih =>
    unfold SourceUnit.blocksOf at ih ⊢
    rw [List.flatMap_cons, List.filter_append, ← ih, List.filter_cons]
    -- the blocks of a graph are all kept or all dropped
    have hown : ∀ f : BlockId × Node → Graph × BlockId × Block, (∀ entry, (f entry).1 = graph) →
        (graph.entries.map f).filter (p ·.1) = if p graph then graph.entries.map f else [] := by
      intro f hf
      rw [List.filter_map]
      cases hp : p graph with
      | true => simp [Function.comp_def, hf, hp]
      | false => simp [Function.comp_def, hf, hp]
    rw [hown _ fun _ => rfl]
    split
    · rw [List.flatMap_cons]
    · rw [List.nil_append]

end ProgramBlock

namespace Program

open ProgramBlock

variable {program : Program} {graphs : List Graph} {unit : SourceUnit}

section Read

variable (hread : ∀ unit ∈ program.units, unit.Parsed)
  (hnames : (program.units.map (·.name)).Nodup) (hplaced : program.IsPlacement graphs)
include hread hplaced

/-- Every block is one of a unit of the program. -/
theorem exists_unit {b : ProgramBlock} (hb : b ∈ ofGraphs graphs) :
    ∃ unit ∈ program.units, b.graph.unit = unit.name := by
  obtain ⟨n, hn, hgraph⟩ := List.mem_iff_getElem.1 (mem_blocks hb).1
  have halike := hplaced.alike hread
  have hbuilt : n < (builtGraphs program.units).length := halike.length_eq ▸ hn
  obtain ⟨unit, hunit, hroutine⟩ := List.mem_flatMap.1 (List.getElem_mem hbuilt)
  refine ⟨unit, hunit, ?_⟩
  have hsame : (builtGraphs program.units)[n].Alike graphs[n] := halike.get hbuilt hn
  rw [← hgraph, hsame.unit]
  exact unit_of_mem_routinesIn (hread unit hunit).fresh hroutine

include hnames

theorem exists_isBlock {b : ProgramBlock} (hunit : unit ∈ program.units)
    (hb : b ∈ ofGraphs graphs) (hname : b.graph.unit = unit.name) :
    ∃ u, unit.IsBlock (routineLabels program.units) u b.block := by
  have hmem : (b.graph, b.id, b.block) ∈
      SourceUnit.blocksOf (graphs.filter (·.unit == unit.name)) := by
    rw [blocksOf_filter, ← map_ofGraphs, List.mem_filter]
    exact ⟨List.mem_map_of_mem hb, by simpa using hname⟩
  exact (hplaced.places hread hnames hunit).isBlock _ (List.mem_map_of_mem hmem)

theorem pairwise_place_ne (hunit : unit ∈ program.units) :
    (ofGraphs graphs).Pairwise fun b c => b.graph.unit = unit.name → c.graph.unit = unit.name →
      ∀ u v, unit.IsBlock (routineLabels program.units) u b.block →
        unit.IsBlock (routineLabels program.units) v c.block → u ≠ v := by
  have honce := (hplaced.places hread hnames hunit).once
  unfold SourceUnit.placedBlocks at honce
  rw [blocksOf_filter, ← map_ofGraphs, List.filter_map, List.map_map, List.pairwise_map,
    List.pairwise_filter] at honce
  refine honce.imp fun {b c} hne hb hc => hne ?_ ?_
  · simpa using hb
  · simpa using hc

/-- Different blocks of a unit start at different lines. -/
theorem pairwise_line_ne : (ofGraphs graphs).Pairwise fun b c =>
    b.graph.unit = c.graph.unit → b.block.line ≠ c.block.line := by
  refine List.pairwise_iff_getElem.2 fun i j hi hj hlt hsame => ?_
  obtain ⟨unit, hunit, hname⟩ := exists_unit hread hplaced (List.getElem_mem hi)
  have hname' := hsame.symm.trans hname
  obtain ⟨u, hu⟩ := exists_isBlock hread hnames hplaced hunit (List.getElem_mem hi) hname
  obtain ⟨v, hv⟩ := exists_isBlock hread hnames hplaced hunit (List.getElem_mem hj) hname'
  have hne := List.pairwise_iff_getElem.1 (pairwise_place_ne hread hnames hplaced hunit) i j hi hj
    hlt hname hname' u v hu hv
  exact line_ne_of_place_ne (hread unit hunit) hu hv hne

/-- Different blocks of a unit differ in their lines, and in their labels. -/
theorem pairwise_apart (hlabels : ∀ unit ∈ program.units, unit.definedLabels.Nodup) :
    (ofGraphs graphs).Pairwise fun b c => b.graph.unit = c.graph.unit → b.Apart c := by
  refine (pairwise_line_ne hread hnames hplaced).imp_of_mem fun {b c} hb hc hline hsame => ?_
  obtain ⟨unit, hunit, hname⟩ := exists_unit hread hplaced hb
  obtain ⟨u, hu⟩ := exists_isBlock hread hnames hplaced hunit hb hname
  obtain ⟨v, hv⟩ := exists_isBlock hread hnames hplaced hunit hc (hsame.symm.trans hname)
  exact ⟨hline hsame, fun label =>
    label?_ne_of_line_ne (hread unit hunit) (hlabels unit hunit) hu hv (hline hsame)⟩

/-- All names are different exactly if no two blocks clash. -/
theorem pairwise_name_ne_iff (hlabels : ∀ unit ∈ program.units, unit.definedLabels.Nodup) :
    (ofGraphs graphs).Pairwise (fun b c => b.name ≠ c.name) ↔
      ∀ b ∈ ofGraphs graphs, ∀ c ∈ ofGraphs graphs, ¬ b.Clash c := by
  constructor
  · intro hne b hb c hc
    have hsymm : Std.Symm fun b c : ProgramBlock => ¬ b.Clash c ∧ ¬ c.Clash b :=
      ⟨fun _ _ h => h.symm⟩
    -- blocks that clash would share a name
    have hclash : (ofGraphs graphs).Pairwise fun b c => ¬ b.Clash c ∧ ¬ c.Clash b :=
      hne.imp fun h => ⟨fun hclash => h hclash.name_eq, fun hclash => h hclash.name_eq.symm⟩
    exact (hclash.forall_of_forall (fun b _ => ⟨b.not_clash_self, b.not_clash_self⟩) hb hc).1
  · intro hclash
    -- blocks that share a name but stand apart clash, one way or the other
    refine (pairwise_apart hread hnames hplaced hlabels).imp_of_mem
      fun {b c} hb hc happart hname => ?_
    exact (clash_of_name_eq hname happart).elim (hclash b hb c hc) (hclash c hc b hb)

end Read

/-- A row of a decision places as many blocks as have its name. -/
theorem placedIn_row {decision : Decision} {name : String} {row : BlockDecision}
    (hrows : decision.rows = [(name, row)]) (hram : row.inRam = true) (graphs : List Graph) :
    decision.placedIn graphs = (Decision.blockNames graphs).count name := by
  refine List.countP_congr fun other _ => ?_
  rw [Decision.block?, hrows, Keyed.get?]
  by_cases hname : name = other
  · simp [hname, hram]
  · simp [hname, Ne.symm hname]

/-- The names of a problem are those of the blocks, in order. -/
theorem names_of_build {σ : Type} {oracle : SizeOracle (StateM σ)} {config : Config}
    {problem : PlacementProblem} {s t : σ}
    (hbuild : (PlacementProblem.build oracle config graphs).run.run s = (.ok problem, t)) :
    problem.names = Decision.blockNames graphs := by
  obtain ⟨costed, hcosted, -, rfl⟩ := PlacementProblem.exists_costed_of_build hbuild
  rw [← name_ofGraphs, ← hcosted, PlacementProblem.names, PlacementProblem.ofCosted, List.map_map,
    List.map_map]
  rfl

/-- Names identify the blocks of a program if and only if no two of them clash: then a row of a
decision places one block, and the exported problem names no block twice. -/
theorem names_identify_iff (hread : ∀ unit ∈ program.units, unit.Parsed)
    (hnames : (program.units.map (·.name)).Nodup)
    (hlabels : ∀ unit ∈ program.units, unit.definedLabels.Nodup)
    (hplaced : program.IsPlacement graphs) :
    (∀ b ∈ ofGraphs graphs, ∀ c ∈ ofGraphs graphs, ¬ b.Clash c) ↔
      (ofGraphs graphs).Pairwise (fun b c => b.name ≠ c.name) ∧
      (∀ (decision : Decision) (name : String) (row : BlockDecision),
        decision.rows = [(name, row)] → row.inRam = true → name ∈ Decision.blockNames graphs →
          decision.placedIn graphs = 1) ∧
      ∀ (σ : Type) (oracle : SizeOracle (StateM σ)) (config : Config) (problem : PlacementProblem)
        (s t : σ), (PlacementProblem.build oracle config graphs).run.run s = (.ok problem, t) →
          problem.names.Nodup := by
  rw [← pairwise_name_ne_iff hread hnames hplaced hlabels]
  refine ⟨fun hne => ?_, fun h => h.1⟩
  have hnodup : (Decision.blockNames graphs).Nodup := by
    rw [← name_ofGraphs]
    exact List.pairwise_map.2 hne
  refine ⟨hne, ?_, ?_⟩
  · intro decision name row hrows hram hmem
    rw [placedIn_row hrows hram]
    exact List.count_eq_one_of_mem hnodup hmem
  · intro σ oracle config problem s t hbuild
    rw [names_of_build hbuild]
    exact hnodup

/-- A decision with one row, which places a block in RAM. -/
def placingOnly (name : String) : Decision where
  cost := 0
  cycles := 0
  ramSize := 2
  rows := [(name, { size := 2, inRam := true, instrumented := false })]

/-- The theorem applied to `twoArms`: its names differ, so a row for `.L2` places one block. -/
theorem names_identify_iff_twoArms :
    (∀ unit ∈ [twoArms], unit.Parsed) ∧ ([twoArms].map (·.name)).Nodup ∧
    (∀ unit ∈ [twoArms], unit.definedLabels.Nodup) ∧
    ({ units := [twoArms] } : Program).IsPlacement twoArmsPlaced ∧
    (∀ b ∈ ofGraphs twoArmsPlaced, ∀ c ∈ ofGraphs twoArmsPlaced, ¬ b.Clash c) ∧
    (placingOnly "t.s_.L2").placedIn twoArmsPlaced = 1 := by
  have hnames : ([twoArms].map (·.name)).Nodup := List.nodup_singleton _
  have hlabels : ∀ unit ∈ [twoArms], unit.definedLabels.Nodup := by
    intro unit hunit
    rw [List.mem_singleton.1 hunit]
    decide +kernel
  have hblocks : Decision.blockNames twoArmsPlaced =
      ["t.s_f", "t.s_5", "t.s_6", "t.s_.L2", "t.s_g"] := by
    decide +kernel
  have hne : (ofGraphs twoArmsPlaced).Pairwise fun b c => b.name ≠ c.name := by
    rw [← List.pairwise_map, name_ofGraphs, hblocks]
    decide
  have hclash := (@pairwise_name_ne_iff { units := [twoArms] } _ parsed_twoArms hnames
    isPlacement_twoArms hlabels).1 hne
  have hidentify := (@names_identify_iff { units := [twoArms] } _ parsed_twoArms hnames hlabels
    isPlacement_twoArms).1 hclash
  exact ⟨parsed_twoArms, hnames, hlabels, isPlacement_twoArms, hclash,
    hidentify.2.1 _ _ _ rfl rfl (by rw [hblocks]; decide)⟩

/-! ## Two units that are called the same -/

/-- The names of the units differ in a character that the problem does not keep. -/
def hyphenTwins : List SourceUnit := [
  (SourceUnit.parse "a-b.s"
    ("\t.type\tf, %function\nf:\n\tcmp\tr0, #0\n\tbeq\t.L2\n\tmovs\tr0, #1\n"
      ++ ".L2:\n\tbx\tlr\n")).value,
  (SourceUnit.parse "a_b.s"
    ("\t.type\tg, %function\ng:\n\tcmp\tr0, #0\n\tbeq\t.L2\n\tmovs\tr0, #1\n"
      ++ ".L2:\n\tbx\tlr\n")).value]

/-- One row places a block in each of the two units. -/
theorem placedIn_hyphenTwins :
    (∀ unit ∈ hyphenTwins, unit.Parsed) ∧ (hyphenTwins.map (·.name)).Nodup ∧
    (∀ unit ∈ hyphenTwins, unit.definedLabels.Nodup) ∧
    ({ units := hyphenTwins } : Program).IsPlacement (builtGraphs hyphenTwins) ∧
    ¬ (ofGraphs (builtGraphs hyphenTwins)).Pairwise (fun b c => b.name ≠ c.name) ∧
    (placingOnly "a_b.s_.L2").placedIn (builtGraphs hyphenTwins) = 2 := by
  have hread : ∀ unit ∈ hyphenTwins, unit.Parsed := by
    intro unit hunit
    simp only [hyphenTwins, List.mem_cons, List.not_mem_nil, or_false] at hunit
    rcases hunit with rfl | rfl
    · exact .parse _ _
    · exact .parse _ _
  have hblocks : Decision.blockNames (builtGraphs hyphenTwins) =
      ["a_b.s_f", "a_b.s_4", "a_b.s_.L2", "a_b.s_g", "a_b.s_4", "a_b.s_.L2"] := by
    decide +kernel
  refine ⟨hread, by decide +kernel, by decide +kernel,
    @isPlacement_builtGraphs { units := hyphenTwins } hread (List.cons_ne_nil _ _), ?_, ?_⟩
  · rw [← List.pairwise_map, name_ofGraphs, hblocks]
    decide
  · rw [placedIn_row rfl rfl, hblocks]
    decide

end Program

end RamOverlay
