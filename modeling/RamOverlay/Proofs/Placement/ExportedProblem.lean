import RamOverlay.Proofs.Placement.SolverData
import RamOverlay.Size.Table
import RamOverlay.Total

/-!
# The exported problem is the program

The data section of a placement problem is read back as the blocks of the program: one row for each
block in each table, in the order of routines and of blocks in them, and a matrix that links the
blocks that are linked in their routine.

* **`blocksFrom_eq_mapM`**: the blocks of the problem are made one by one from those of the program.
* **`Offsets.index_eq`**: the place of a block among all blocks is its place in its routine, behind
  the blocks of the routines before. So a link between places is a link in one routine
  (`Offsets.contains_iff`).
* **`read?_mathprog_build`**: what the section says of a problem that was built.
-/

namespace RamOverlay

/-- A block of a program, with its routine and its place there. -/
structure ProgramBlock where
  routine : Nat
  graph : Graph
  id : BlockId
  node : Node
  deriving DecidableEq, Repr

namespace ProgramBlock

def block (b : ProgramBlock) : Block := b.node.block

/-- The name of the block in the problem. -/
def name (b : ProgramBlock) : String := Graph.nameOf b.graph.unit b.block

/-- Whether the block has to be in RAM. -/
def isForced (b : ProgramBlock) (config : Config) : Bool :=
  config.isForced b.graph.unit b.block.line

/-- Whether control goes from a block to another one of the same routine. -/
def leadsTo (b c : ProgramBlock) : Bool :=
  b.routine == c.routine && b.block.successors.contains c.id

/-- The costs of blocks, one after the other. -/
def costs {m : Type → Type} [Monad m] (oracle : SizeOracle m) (blocks : List ProgramBlock) :
    ExceptT CostError m (List Cost) :=
  blocks.mapM fun b => b.block.cost oracle

/-- The blocks of a routine. -/
def ofGraph (routine : Nat) (graph : Graph) : List ProgramBlock :=
  graph.entries.map fun (id, node) => { routine, graph, id, node }

/-- The blocks of routines, the first of which has number `routine`. -/
def ofGraphsFrom (routine : Nat) (graphs : List Graph) : List ProgramBlock :=
  (graphs.zipIdx routine).flatMap fun (graph, routine) => ofGraph routine graph

/-- The blocks of a program, routine by routine. -/
def ofGraphs (graphs : List Graph) : List ProgramBlock := ofGraphsFrom 0 graphs

@[simp] theorem ofGraphsFrom_nil (routine : Nat) : ofGraphsFrom routine [] = [] := rfl

@[simp] theorem ofGraphsFrom_cons (routine : Nat) (graph : Graph) (graphs : List Graph) :
    ofGraphsFrom routine (graph :: graphs)
      = ofGraph routine graph ++ ofGraphsFrom (routine + 1) graphs := by
  simp [ofGraphsFrom]

@[simp] theorem length_ofGraph (routine : Nat) (graph : Graph) :
    (ofGraph routine graph).length = graph.size := by
  simp [ofGraph, Graph.entries, Graph.size]

theorem getElem?_ofGraph (routine k : Nat) (graph : Graph) : (ofGraph routine graph)[k]? =
    graph.nodes[k]?.map fun node => { routine, graph, id := k, node } := by
  simp [ofGraph, Graph.entries, Function.comp_def]

theorem mem_ofGraph {routine : Nat} {graph : Graph} {b : ProgramBlock} :
    b ∈ ofGraph routine graph ↔
      ∃ id node, graph.nodes[id]? = some node ∧ { routine, graph, id, node } = b := by
  simp only [List.mem_iff_getElem?, getElem?_ofGraph, Option.map_eq_some_iff]

theorem mem_blocks {graphs : List Graph} {b : ProgramBlock} (hb : b ∈ ofGraphs graphs) :
    b.graph ∈ graphs ∧ b.block ∈ b.graph.blocks := by
  obtain ⟨⟨graph, routine⟩, hgraph, hb⟩ := List.mem_flatMap.1 hb
  obtain ⟨id, node, hnode, rfl⟩ := mem_ofGraph.1 hb
  exact ⟨List.fst_mem_of_mem_zipIdx hgraph,
    List.mem_map_of_mem (Array.mem_toList_iff.2 (Array.mem_of_getElem? hnode))⟩

end ProgramBlock

section Runs

variable {ε σ α β γ : Type}

/-- Two parts succeed together if the first does, and the second from what the first left. -/
theorem run_bind_eq_ok {x : ExceptT ε (StateM σ) α} {f : α → ExceptT ε (StateM σ) β} {b : β}
    {s t : σ} (h : (x >>= f).run.run s = (.ok b, t)) :
    ∃ a u, x.run.run s = (.ok a, u) ∧ (f a).run.run u = (.ok b, t) := by
  rw [ExceptT.run_bind, StateT.run_bind] at h
  cases hx : x.run.run s with
  | mk result u =>
    rw [hx] at h
    cases result with
    | error e => cases h
    | ok a => exact ⟨a, u, rfl, h⟩

theorem run_bind_of_ok {x : ExceptT ε (StateM σ) α} {f : α → ExceptT ε (StateM σ) β} {a : α}
    {s t : σ} (h : x.run.run s = (.ok a, t)) : (x >>= f).run.run s = (f a).run.run t := by
  rw [ExceptT.run_bind, StateT.run_bind, h]
  rfl

/-- What was made of items at a cost can be told from the items and their costs. -/
theorem exists_pairs_of_mapM {cost : α → ExceptT ε (StateM σ) β} {f : α → β → γ} {items : List α}
    {made : List γ} {s t : σ}
    (h : (items.mapM fun a => f a <$> cost a).run.run s = (.ok made, t)) :
    ∃ pairs : List (α × β), pairs.map (·.1) = items ∧
      (items.mapM cost).run.run s = (.ok (pairs.map (·.2)), t) ∧
      made = pairs.map fun (a, b) => f a b := by
  induction items generalizing made s t with
  | nil =>
    cases h
    exact ⟨[], rfl, rfl, rfl⟩
  | cons a items ih =>
    rw [List.mapM_cons, bind_map_left] at h
    -- the first item has a cost, and the others are made from the state behind it
    obtain ⟨b, u, hcost, h⟩ := run_bind_eq_ok h
    obtain ⟨others, v, hothers, h⟩ := run_bind_eq_ok h
    obtain ⟨pairs, hitems, hrun, rfl⟩ := ih hothers
    cases h
    refine ⟨(a, b) :: pairs, by rw [List.map_cons, hitems], ?_, rfl⟩
    rw [List.mapM_cons, run_bind_of_ok hcost, run_bind_of_ok hrun]
    rfl

end Runs

namespace PlacementProblem

open DataSection

/-- A block of a problem, for a program with `offset r` blocks before routine `r`. -/
def problemBlock (config : Config) (offset : Nat → Nat) (b : ProgramBlock) (cost : Cost) :
    ProblemBlock where
  name := b.name
  location := ⟨b.routine, b.id⟩
  cost
  iterations := b.node.iterations
  forceRam := b.isForced config
  forceFlash := config.specifiedOnly && !b.isForced config
  instrumentation := b.block.instrumentationCost
  ramAccessCycles := b.block.ramAccessCost
  successors := b.block.successors.map (offset b.routine + ·)

/-- Every routine starts behind the one before. -/
def Offsets (offset : Nat → Nat) (routine start : Nat) : List Graph → Prop
  | [] => True
  | graph :: rest => offset routine = start ∧ Offsets offset (routine + 1) (start + graph.size) rest

section Build

variable {m : Type → Type} [Monad m] [LawfulMonad m] (oracle : SizeOracle m) (config : Config)
  {offset : Nat → Nat}

/-- The blocks of a routine are costed one after the other. -/
theorem routineBlocks_eq_mapM (graph : Graph) (routine : Nat) (entries : List (BlockId × Node)) :
    routineBlocks oracle config graph routine (offset routine) entries
      = (entries.map fun (id, node) => { routine, graph, id, node }).mapM fun b : ProgramBlock =>
          problemBlock config offset b <$> b.block.cost oracle := by
  induction entries with
  | nil => rfl
  | cons entry rest ih =>
    rw [routineBlocks, ih]
    simp [List.mapM_cons, problemBlock, ProgramBlock.block, ProgramBlock.name,
      ProgramBlock.isForced]

theorem blocksFrom_eq_mapM {routine start : Nat} {graphs : List Graph}
    (h : Offsets offset routine start graphs) :
    blocksFrom oracle config routine start graphs
      = (ProgramBlock.ofGraphsFrom routine graphs).mapM fun b =>
          problemBlock config offset b <$> b.block.cost oracle := by
  induction graphs generalizing routine start with
  | nil => rfl
  | cons graph rest ih =>
    obtain ⟨rfl, hrest⟩ := h
    rw [blocksFrom, ih hrest, routineBlocks_eq_mapM, ProgramBlock.ofGraphsFrom_cons,
      List.mapM_append]
    rfl

end Build

/-! ## Successors -/

/-- The place of a block among all blocks. -/
theorem Offsets.index_eq {offset : Nat → Nat} {routine start j : Nat} {graphs : List Graph}
    {b : ProgramBlock} (h : Offsets offset routine start graphs)
    (hb : (ProgramBlock.ofGraphsFrom routine graphs)[j]? = some b) :
    start + j = offset b.routine + b.id := by
  induction graphs generalizing routine start j with
  | nil => simp at hb
  | cons graph rest ih =>
    obtain ⟨rfl, hrest⟩ := h
    rw [ProgramBlock.ofGraphsFrom_cons] at hb
    -- the place is in the first routine, or in one of those behind it
    by_cases hj : j < graph.size
    · rw [List.getElem?_append_left (by simpa using hj), ProgramBlock.getElem?_ofGraph] at hb
      obtain ⟨node, -, rfl⟩ := Option.map_eq_some_iff.1 hb
      rfl
    · have hle := Nat.le_of_not_lt hj
      rw [List.getElem?_append_right (by simpa using hle), ProgramBlock.length_ofGraph] at hb
      have hindex := ih hrest hb
      omega

/-- Every place in the routine of a block is the place of some block of that routine. -/
theorem Offsets.exists_index {offset : Nat → Nat} {routine start k : Nat} {graphs : List Graph}
    {b : ProgramBlock} (h : Offsets offset routine start graphs)
    (hb : b ∈ ProgramBlock.ofGraphsFrom routine graphs) (hk : k < b.graph.size) :
    ∃ j c, start + j = offset b.routine + k ∧
      (ProgramBlock.ofGraphsFrom routine graphs)[j]? = some c ∧
      c.routine = b.routine ∧ c.id = k := by
  induction graphs generalizing routine start with
  | nil => simp at hb
  | cons graph rest ih =>
    obtain ⟨rfl, hrest⟩ := h
    rw [ProgramBlock.ofGraphsFrom_cons] at hb ⊢
    rcases List.mem_append.1 hb with hb | hb
    · -- the routine of the block is the first one, which begins at the start
      obtain ⟨id, node, -, rfl⟩ := ProgramBlock.mem_ofGraph.1 hb
      refine ⟨k, { routine, graph, id := k, node := graph.nodes[k] }, rfl, ?_, rfl, rfl⟩
      rw [List.getElem?_append_left (by simpa using hk), ProgramBlock.getElem?_ofGraph,
        Array.getElem?_eq_getElem hk]
      rfl
    · obtain ⟨j, c, hindex, hc, hroutine, hid⟩ := ih hrest hb
      refine ⟨graph.size + j, c, by omega, ?_, hroutine, hid⟩
      rw [List.getElem?_append_right (by simp), ProgramBlock.length_ofGraph,
        Nat.add_sub_cancel_left]
      exact hc

/-- A link between places among all blocks is a link in a routine. -/
theorem Offsets.contains_iff {offset : Nat → Nat} {graphs : List Graph} {b c : ProgramBlock}
    {j : Nat} (h : Offsets offset 0 0 graphs) (hb : b ∈ ProgramBlock.ofGraphs graphs)
    (hrange : ∀ next ∈ b.block.successors, next < b.graph.size)
    (hc : (ProgramBlock.ofGraphs graphs)[j]? = some c) :
    (b.block.successors.map (offset b.routine + ·)).contains j = b.leadsTo c := by
  have hindex := h.index_eq hc
  rw [Bool.eq_iff_iff, List.contains_iff_mem, List.mem_map]
  simp only [ProgramBlock.leadsTo, Bool.and_eq_true, beq_iff_eq, List.contains_iff_mem]
  constructor
  · rintro ⟨k, hk, hj⟩
    -- a link to a place is one to the block there, which is of the same routine
    obtain ⟨i, d, hi, hd, hroutine, hid⟩ := h.exists_index hb (hrange k hk)
    obtain rfl : i = j := by omega
    obtain rfl : c = d := Option.some.inj (hc.symm.trans hd)
    exact ⟨hroutine.symm, hid ▸ hk⟩
  · rintro ⟨hroutine, hid⟩
    exact ⟨c.id, hid, by rw [hroutine]; omega⟩

/-- The number of blocks in the routines before a routine. -/
def offsetOf (graphs : List Graph) (routine : Nat) : Nat :=
  totalOf Graph.size (graphs.take routine)

theorem offsets_append (before after : List Graph) :
    Offsets (offsetOf (before ++ after)) before.length (totalOf Graph.size before) after := by
  induction after generalizing before with
  | nil => trivial
  | cons graph after ih =>
    refine ⟨by simp [offsetOf], ?_⟩
    have hrest := ih (before ++ [graph])
    simpa using hrest

theorem offsets_offsetOf (graphs : List Graph) : Offsets (offsetOf graphs) 0 0 graphs :=
  offsets_append [] graphs

/-! ## The section -/

/-- A name without blanks and semicolons is a single word to the reader. -/
theorem isWord_nameOf {unit : String} {block : Block}
    (h : ∀ c ∈ (Graph.nameOf unit block).toList, Text.isBlank c = false ∧ c ≠ ';') :
    IsWord (Graph.nameOf unit block) ∧ Graph.nameOf unit block ≠ ":=" := by
  have hmem : '_' ∈ (Graph.nameOf unit block).toList := by simp [Graph.nameOf]
  refine ⟨⟨?_, h⟩, ?_⟩
  · intro hempty
    rw [hempty] at hmem
    exact absurd hmem (by decide)
  · intro hassign
    rw [hassign] at hmem
    exact absurd hmem (by decide)

/-- What the section has to say of blocks and their costs. -/
def rowsOf (config : Config) (costed : List (ProgramBlock × Cost)) : List Entry :=
  [.set "BBs" (costed.map fun (b, _) => b.name),
    .table "usize" (costed.map fun (b, cost) => (b.name, cost.size)),
    .table "cyc_cost" (costed.map fun (b, cost) => (b.name, cost.cycles)),
    .table "iterations" (costed.map fun (b, _) => (b.name, b.node.iterations)),
    .table "force_ram" (costed.map fun (b, _) => (b.name, (b.isForced config).toNat)),
    .table "force_flash"
      (costed.map fun (b, _) => (b.name, (config.specifiedOnly && !b.isForced config).toNat)),
    .table "icost_ram" (costed.map fun (b, _) => (b.name, b.block.instrumentationCost.size)),
    .table "icost_cyc" (costed.map fun (b, _) => (b.name, b.block.instrumentationCost.cycles)),
    .table "icost_cyc_ram" (costed.map fun (b, _) => (b.name, b.block.ramAccessCost)),
    .matrix "successors" (costed.map fun (b, _) => b.name)
      (costed.map fun (b, _) => (b.name, costed.map fun (c, _) => (b.leadsTo c).toNat)),
    .setting "E_flash" (Text.decimal config.flashEnergy),
    .setting "E_ram" (Text.decimal config.ramEnergy),
    .setting "spare_ram" (Text.decimal config.spareRam),
    .setting "max_cycle_factor" config.maxCycleFactor.text]

/-- The problem of blocks and their costs. -/
def ofCosted (config : Config) (offset : Nat → Nat) (costed : List (ProgramBlock × Cost)) :
    PlacementProblem where
  blocks := costed.map fun (b, cost) => problemBlock config offset b cost
  config

section Costed

variable {config : Config} {offset : Nat → Nat} {graphs : List Graph}
  {costed : List (ProgramBlock × Cost)}

/-- The bits of a block tell which blocks it leads to. -/
theorem successorBits_ofCosted (hoffset : Offsets offset 0 0 graphs)
    (hcosted : costed.map (·.1) = ProgramBlock.ofGraphs graphs) {b : ProgramBlock} {cost : Cost}
    (hb : b ∈ ProgramBlock.ofGraphs graphs)
    (hrange : ∀ next ∈ b.block.successors, next < b.graph.size) :
    (ofCosted config offset costed).successorBits (problemBlock config offset b cost)
      = costed.map fun (c, _) => (b.leadsTo c).toNat := by
  refine List.ext_getElem (by simp [successorBits, ofCosted]) fun j hj hj' => ?_
  have hlt : j < costed.length := by simpa using hj'
  have hc : (ProgramBlock.ofGraphs graphs)[j]? = some costed[j].1 := by
    rw [← hcosted]
    simp [hlt]
  simp only [successorBits, List.getElem_map, List.getElem_range]
  exact congrArg Bool.toNat (hoffset.contains_iff hb hrange hc)

/-- The data of the problem, told by the blocks and their costs. -/
theorem data_ofCosted (hoffset : Offsets offset 0 0 graphs)
    (hcosted : costed.map (·.1) = ProgramBlock.ofGraphs graphs)
    (hrange : ∀ graph ∈ graphs, ∀ block ∈ graph.blocks, ∀ next ∈ block.successors,
      next < graph.size) :
    (ofCosted config offset costed).data = rowsOf config costed := by
  -- row by row the bits tell which blocks are led to
  have hbits : (ofCosted config offset costed).blocks.map
        (fun block => (block.name, (ofCosted config offset costed).successorBits block))
      = costed.map fun (b, _) => (b.name, costed.map fun (c, _) => (b.leadsTo c).toNat) := by
    rw [ofCosted, List.map_map]
    refine List.map_congr_left fun ⟨b, cost⟩ hmem => ?_
    have hb : b ∈ ProgramBlock.ofGraphs graphs := hcosted ▸ List.mem_map_of_mem hmem
    obtain ⟨hgraph, hblock⟩ := ProgramBlock.mem_blocks hb
    exact congrArg (b.name, ·)
      (successorBits_ofCosted hoffset hcosted hb (hrange b.graph hgraph b.block hblock))
  have hnames : (ofCosted config offset costed).names = costed.map fun (b, _) => b.name := by
    rw [names, ofCosted, List.map_map]
    rfl
  rw [data, hbits, hnames]
  simp [rowsOf, numbers, ofCosted, problemBlock]

end Costed

/-- A problem that was built is that of the blocks of the program and their costs. -/
theorem exists_costed_of_build {σ : Type} {oracle : SizeOracle (StateM σ)} {config : Config}
    {graphs : List Graph} {problem : PlacementProblem} {s t : σ}
    (hbuild : (build oracle config graphs).run.run s = (.ok problem, t)) :
    ∃ costed, costed.map (·.1) = ProgramBlock.ofGraphs graphs ∧
      (ProgramBlock.costs oracle (ProgramBlock.ofGraphs graphs)).run.run s
        = (.ok (costed.map (·.2)), t) ∧
      problem = ofCosted config (offsetOf graphs) costed := by
  rw [build, blocksFrom_eq_mapM oracle config (offsets_offsetOf graphs)] at hbuild
  obtain ⟨blocks, u, hblocks, hproblem⟩ := run_bind_eq_ok hbuild
  cases hproblem
  obtain ⟨costed, hcosted, hrun, rfl⟩ := exists_pairs_of_mapM hblocks
  exact ⟨costed, hcosted, hrun, rfl⟩

/-- The section of a problem that was built has a row for each block of the program, in the order of
the routines and of the blocks in them, with what is known about that block; its matrix links two
blocks if they are linked in their routine. -/
theorem read?_mathprog_build {σ : Type} {oracle : SizeOracle (StateM σ)} {config : Config}
    {graphs : List Graph} {problem : PlacementProblem} {s t : σ}
    (hrange : ∀ graph ∈ graphs, ∀ block ∈ graph.blocks, ∀ next ∈ block.successors,
      next < graph.size)
    (hnames : ∀ b ∈ ProgramBlock.ofGraphs graphs, ∀ c ∈ b.name.toList,
      Text.isBlank c = false ∧ c ≠ ';')
    (hbuild : (build oracle config graphs).run.run s = (.ok problem, t)) :
    ∃ costed, costed.map (·.1) = ProgramBlock.ofGraphs graphs ∧
      (ProgramBlock.costs oracle (ProgramBlock.ofGraphs graphs)).run.run s
        = (.ok (costed.map (·.2)), t) ∧
      read? problem.mathprog = some (rowsOf config costed) := by
  obtain ⟨costed, hcosted, hrun, rfl⟩ := exists_costed_of_build hbuild
  refine ⟨costed, hcosted, hrun, ?_⟩
  have hwords : ∀ block ∈ (ofCosted config (offsetOf graphs) costed).blocks,
      IsWord block.name ∧ block.name ≠ ":=" := by
    intro block hblock
    obtain ⟨⟨b, cost⟩, hmem, rfl⟩ := List.mem_map.1 hblock
    exact isWord_nameOf (hnames b (hcosted ▸ List.mem_map_of_mem hmem))
  rw [read?_mathprog (fun block hblock => (hwords block hblock).1)
    fun block hblock => (hwords block hblock).2,
    data_ofCosted (offsets_offsetOf graphs) hcosted hrange]

/-- Two routines with a loop in the second one, and a routine without blocks between them. -/
def loopBehind : List Graph := [
  .ofBlocks "a-b.s" [
    { first := { address := 0, line := 1, label? := some "f" }
      rest := [{ address := 1, line := 2, operator := "ldr", operands := "r0, [r1]" }]
      successors := [1] },
    { first := { address := 2, line := 3, operator := "bx", operands := "lr" } }],
  .ofBlocks "a-b.s" [],
  .ofBlocks "c.s" [
    { first := { address := 0, line := 4, label? := some "g" }
      rest := [{ address := 1, line := 5, operator := "bne", operands := "g" }]
      successors := [1, 0] },
    { first := { address := 2, line := 6, operator := "bx", operands := "lr" } }]]

/-- All instructions of `loopBehind` take two bytes. -/
def twoBytes : SizeTable := { default? := some 2 }

/-- The theorem applied to `loopBehind`; the two edges of the loop stand in one row of the matrix.
-/
theorem read?_mathprog_build_loopBehind : ∃ problem queries costed,
    (build twoBytes.oracle { forced := [⟨"c.s", 4⟩] } loopBehind).run.run []
      = (.ok problem, queries) ∧
    costed.map (·.1) = ProgramBlock.ofGraphs loopBehind ∧
    costed.map (·.2) = [⟨2, 2⟩, ⟨2, 3⟩, ⟨2, 3⟩, ⟨2, 3⟩] ∧
    read? problem.mathprog = some (rowsOf { forced := [⟨"c.s", 4⟩] } costed) ∧
    (rowsOf { forced := [⟨"c.s", 4⟩] } costed)[9]? = some (.matrix "successors"
      ["a_b.s_f", "a_b.s_3", "c.s_g", "c.s_6"]
      [("a_b.s_f", [0, 1, 0, 0]), ("a_b.s_3", [0, 0, 0, 0]),
        ("c.s_g", [0, 0, 1, 1]), ("c.s_6", [0, 0, 0, 0])]) := by
  have hrange : ∀ graph ∈ loopBehind, ∀ block ∈ graph.blocks, ∀ next ∈ block.successors,
      next < graph.size := by
    decide +kernel
  have hnames : ∀ b ∈ ProgramBlock.ofGraphs loopBehind, IsWord b.name := by decide +kernel
  obtain ⟨costed, hcosted, hrun, hread⟩ := @read?_mathprog_build _ twoBytes.oracle
    { forced := [⟨"c.s", 4⟩] } loopBehind _ [] _ hrange (fun b hb => (hnames b hb).plain) rfl
  have hcosts : costed.map (·.2) = [⟨2, 2⟩, ⟨2, 3⟩, ⟨2, 3⟩, ⟨2, 3⟩] :=
    (Except.ok.inj (congrArg Prod.fst hrun)).symm
  refine ⟨_, _, costed, rfl, hcosted, hcosts, hread, ?_⟩
  rw [List.zip_of_prod hcosted hcosts]
  decide +kernel

end PlacementProblem

end RamOverlay
