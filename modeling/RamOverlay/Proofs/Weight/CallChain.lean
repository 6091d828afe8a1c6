import Mathlib.Algebra.Order.BigOperators.GroupWithZero.List
import Mathlib.Algebra.Order.Ring.Nat
import Mathlib.Order.Lattice.Nat
import RamOverlay.Proofs.Call.Resolution
import RamOverlay.Proofs.Code.RoutineEdges
import RamOverlay.Proofs.Weight.Closure

/-!
# Counts as greatest products along chains of calls

A chain of calls runs a block as often as the product of the weights along it says, cut to the
greatest count. If no chain is cut off, the count of a block is the greatest of these, over all
chains from routines that are never called.

* **`runs_of_chain`**: closed counts are not below the product of any chain.
* **`closed_greatestAlong`**: the greatest products of chains are closed counts.
* **`isGreatest_visitAll`**: so the least closed counts are the greatest products.
* **`CallGraph.isGreatest_estimate`**: the estimate of a program, on the chains of its call graph.
-/

namespace RamOverlay

namespace Workload

variable {load : Workload} {counts bound : Counts} {routine base : Nat} {roots : List Nat}
  {first last : Nat} {blocks : List BlockRef} {block : BlockRef}

/-- How often a block is run that is reached by a chain of calls from the blocks. -/
def countAlong (weight : BlockRef → Nat) (blocks : List BlockRef) (block : BlockRef) : Nat :=
  Count.cut ((blocks.map weight).prod * weight block)

/-- The counts of a block for all chains of calls from a root to its routine. -/
def CountsAlong (load : Workload) (roots : List Nat) (block : BlockRef) : Set Nat :=
  {count | ∃ root ∈ roots, ∃ blocks, load.Chain root blocks block.routine ∧
    count = countAlong load.weight blocks block}

/-- Counts are cut off, so there is a bound for all chains. -/
theorem bddAbove_countsAlong (load : Workload) (roots : List Nat) (block : BlockRef) :
    BddAbove (load.CountsAlong roots block) := by
  refine ⟨Count.greatest, ?_⟩
  rintro _ ⟨_, _, _, _, rfl⟩
  exact Count.cut_le _

/-- The calls of a chain agree with closed counts, and so does their product. -/
theorem runs_of_chain (hclosed : load.Closed roots bound) (hchain : load.Chain first blocks last)
    (hreached : load.Reached roots first) (hruns : load.Runs bound first base) :
    load.Runs bound last (Count.cut (base * (blocks.map load.weight).prod)) := by
  induction hchain generalizing base with
  | here =>
    intro id hid
    rw [List.map_nil, List.prod_nil, Nat.mul_one, Count.mul_cut_right]
    exact hruns id hid
  | @call block callee blocks last hblock hcallee _ ih =>
    -- One call: the callee runs as often as the calling block, times its weight.
    have hcall : load.Runs bound callee (Count.mul (load.weight block) base) := fun id hid =>
      Nat.le_trans (Count.mul_mono (Nat.le_refl _) (hruns block.block hblock))
        (hclosed.call block hreached hblock callee hcallee id hid)
    -- Cutting after every factor is cutting once, after the whole product.
    have hproduct : Count.cut (Count.mul (load.weight block) base * (blocks.map load.weight).prod) =
        Count.cut (base * ((block :: blocks).map load.weight).prod) := by
      rw [List.map_cons, List.prod_cons, Count.mul, Count.cut_mul_cut, Nat.mul_comm _ base,
        Nat.mul_assoc]
    exact hproduct ▸ ih (hreached.call block hblock hcallee) hcall

/-- Counts that are closed under calls bound the count along each chain. -/
theorem countAlong_le (hclosed : load.Closed roots bound) {root : Nat} (hroot : root ∈ roots)
    (hchain : load.Chain root blocks block.routine)
    (hblock : block.block ∈ load.blocks block.routine) :
    countAlong load.weight blocks block ≤ bound block := by
  have hruns := runs_of_chain hclosed hchain ⟨root, hroot, [], .here root⟩ (hclosed.root root hroot)
    block.block hblock
  rw [Count.mul_cut_right, Nat.one_mul, Count.mul, Nat.mul_comm] at hruns
  exact hruns

/-- The greatest count of a block over all chains of calls. -/
noncomputable def greatestAlong (load : Workload) (roots : List Nat) : Counts := fun block =>
  sSup (load.CountsAlong roots block)

theorem greatestAlong_mem (hreached : load.Reached roots block.routine) :
    load.greatestAlong roots block ∈ load.CountsAlong roots block := by
  obtain ⟨root, hroot, blocks, hchain⟩ := hreached
  exact Nat.sSup_mem ⟨_, root, hroot, blocks, hchain, rfl⟩ (bddAbove_countsAlong load roots block)

theorem le_greatestAlong {count : Nat} (h : count ∈ load.CountsAlong roots block) :
    count ≤ load.greatestAlong roots block :=
  le_csSup (bddAbove_countsAlong load roots block) h

/-- A call makes a chain longer by its block, and the product by its weight. -/
theorem closed_greatestAlong (load : Workload) (roots : List Nat) :
    load.Closed roots (load.greatestAlong roots) where
  root root hroot id _ := by
    refine le_greatestAlong ⟨root, hroot, [], .here root, ?_⟩
    rw [countAlong, List.map_nil, List.prod_nil, Count.mul, Nat.mul_comm]
  call block hreached hblock callee hcallee id _ := by
    obtain ⟨root, hroot, blocks, hchain, heq⟩ := greatestAlong_mem hreached
    refine le_greatestAlong ⟨root, hroot, blocks ++ [block],
      hchain.append (.call block hblock hcallee (.here callee)), ?_⟩
    rw [heq, countAlong, countAlong, Count.mul_cut_right, Count.mul, Nat.mul_comm, List.map_append,
      List.prod_append, List.map_singleton, List.prod_singleton]

/-- If no chain of calls from a root is cut off, each count is the greatest of those along the
chains, unless the count before was greater. -/
theorem isGreatest_visitAll (block : BlockRef) {depth : Nat}
    (hshort : ∀ root ∈ roots, ∀ blocks last,
      load.Chain root blocks last → blocks.length ≤ depth)
    (hcounts : counts ≤ load.greatestAlong roots) (hreached : load.Reached roots block.routine)
    (hblock : block.block ∈ load.blocks block.routine) :
    IsGreatest (load.CountsAlong roots block) (load.visitAll depth roots counts block) := by
  have hleast := isLeast_visitAll hshort counts
  -- The greatest counts along chains are closed, so the least closed ones are not above them.
  have hle := hleast.2 ⟨closed_greatestAlong load roots, hcounts⟩ block
  -- Closed counts are above the product of every chain.
  have hupper : load.visitAll depth roots counts block ∈
      upperBounds (load.CountsAlong roots block) := by
    rintro _ ⟨root, hroot, blocks, hchain, rfl⟩
    exact countAlong_le hleast.1.1 hroot hchain hblock
  have heq := Nat.le_antisymm hle (hupper (greatestAlong_mem hreached))
  exact ⟨heq ▸ greatestAlong_mem hreached, hupper⟩

end Workload

namespace CallGraph

variable {calls : CallGraph} {graphs : List Graph} {first last : Nat} {blocks : List BlockRef}
  {place : BlockRef} {edge : CallEdge}

/-- Calls from routine to routine, each from a block of the routine that was called before. -/
inductive Chain (calls : CallGraph) : Nat → List BlockRef → Nat → Prop where
  | here (routine : Nat) : Chain calls routine [] routine
  | call {edge : CallEdge} {blocks : List BlockRef} {last : Nat} (hedge : edge ∈ calls.edges)
      (hrest : Chain calls edge.callee.routine blocks last) :
      Chain calls edge.caller.routine (edge.caller :: blocks) last

/-- If calls lead to routines of lower rank only, a chain is no longer than the rank of its first
routine. -/
theorem Chain.length_le (rank : Nat → Nat) (hrank : ∀ edge ∈ calls.edges,
      rank edge.callee.routine < rank edge.caller.routine) (h : calls.Chain first blocks last) :
    blocks.length ≤ rank first := by
  induction h with
  | here => exact Nat.zero_le _
  | call hedge _ ih => exact Nat.lt_of_le_of_lt ih (hrank _ hedge)

/-! ## Call graphs of programs -/

/-- The place is that of a block of the program. -/
def IsBlock (graphs : List Graph) (place : BlockRef) : Prop :=
  ∃ graph, graphs[place.routine]? = some graph ∧ place.block < graph.size

theorem isBlock_of_block? {block : Block} (h : block? graphs place = some block) :
    IsBlock graphs place := by
  obtain ⟨graph, hgraph, hblock⟩ := block?_eq_some_iff.1 h
  exact ⟨graph, hgraph, Graph.isSome_block?.1 (by rw [hblock]; rfl)⟩

/-- Calls are made by blocks of the program and call blocks of the program. -/
theorem isBlock_of_mem_edges (hedge : edge ∈ (ofGraphs graphs).edges) :
    IsBlock graphs edge.caller ∧ IsBlock graphs edge.callee := by
  obtain ⟨_, ⟨_, hcaller, _⟩, hcallee⟩ := mem_edges_iff.1 hedge
  obtain ⟨_, hcallee, _⟩ := startsWith_of_entrance? hcallee
  exact ⟨isBlock_of_block? hcaller, isBlock_of_block? hcallee⟩

theorem mem_blocks_workload {estimate : Nat} :
    place.block ∈ (calls.workload estimate graphs).blocks place.routine ↔ IsBlock graphs place := by
  unfold IsBlock workload
  dsimp only
  cases graphs[place.routine]? with
  | none => simp
  | some graph => simp [Graph.ids]

theorem mem_callees_workload {estimate callee : Nat} :
    callee ∈ (calls.workload estimate graphs).callees place ↔
      ∃ edge ∈ calls.edges, edge.caller = place ∧ edge.callee.routine = callee := by
  simp [workload, callsFrom, and_assoc]

/-- The chains of calls that an estimate follows are those of the call graph. -/
theorem chain_workload {estimate : Nat} :
    ((ofGraphs graphs).workload estimate graphs).Chain first blocks last ↔
      (ofGraphs graphs).Chain first blocks last := by
  constructor
  · intro h
    induction h with
    | here routine => exact .here routine
    | call _ _ hcallee _ ih =>
      obtain ⟨edge, hedge, rfl, rfl⟩ := mem_callees_workload.1 hcallee
      exact .call hedge ih
  · intro h
    induction h with
    | here routine => exact .here routine
    | call hedge _ ih =>
      exact .call _ (mem_blocks_workload.2 (isBlock_of_mem_edges hedge).1)
        (mem_callees_workload.2 ⟨_, hedge, rfl, rfl⟩) ih

/-- A routine that is called by no root, directly or through others, is at the end of chains of any
length. -/
theorem exists_root_or_long {routine : Nat} (hroutine : routine < graphs.length) (n : Nat) :
    (∃ root ∈ (ofGraphs graphs).roots graphs.length, ∃ blocks,
        (ofGraphs graphs).Chain root blocks routine) ∨
      ∃ first < graphs.length, ∃ blocks, (ofGraphs graphs).Chain first blocks routine ∧
        blocks.length = n := by
  induction n with
  | zero => exact .inr ⟨routine, hroutine, [], .here routine, rfl⟩
  | succ n ih =>
    refine ih.elim .inl ?_
    rintro ⟨first, hfirst, blocks, hchain, hlength⟩
    by_cases hroot : first ∈ (ofGraphs graphs).roots graphs.length
    · exact .inl ⟨first, hroot, blocks, hchain⟩
    · -- No root, so an edge calls the first routine, and the chain gets one call longer.
      simp only [roots, List.mem_filter, List.mem_range, hfirst, true_and, List.all_eq_true,
        not_forall, bne_iff_ne, ne_eq, not_not] at hroot
      obtain ⟨edge, hedge, rfl⟩ := hroot
      obtain ⟨_, hcaller, _⟩ := (isBlock_of_mem_edges hedge).1
      exact .inr ⟨_, (List.getElem?_eq_some_iff.mp hcaller).1, _, .call hedge hchain,
        congrArg (· + 1) hlength⟩

/-- If chains of calls are bounded, every routine is called from a root. -/
theorem exists_root {depth routine : Nat} (hshort : ∀ first blocks last,
      (ofGraphs graphs).Chain first blocks last → blocks.length ≤ depth)
    (hroutine : routine < graphs.length) :
    ∃ root ∈ (ofGraphs graphs).roots graphs.length, ∃ blocks,
      (ofGraphs graphs).Chain root blocks routine := by
  refine (exists_root_or_long hroutine (depth + 1)).resolve_right ?_
  rintro ⟨first, _, blocks, hchain, hlength⟩
  have hle := hshort first blocks routine hchain
  omega

/-! ## Estimates -/

theorem blockWeight_pos {estimate : Nat} (h : 1 ≤ estimate) (depth : Nat) (isHeader : Bool) :
    1 ≤ blockWeight estimate depth isHeader := by
  unfold blockWeight
  split
  · exact Nat.mul_pos (Nat.pow_pos h) (Nat.succ_pos _)
  · exact Nat.pow_pos h

theorem weightOf_pos {estimate : Nat} (h : 1 ≤ estimate) (hplace : IsBlock graphs place) :
    1 ≤ weightOf estimate graphs place := by
  obtain ⟨graph, hgraph, _⟩ := hplace
  simp only [weightOf, hgraph]
  exact blockWeight_pos h _ _

/-- A chain goes through blocks of the program. -/
theorem Chain.isBlock (h : (ofGraphs graphs).Chain first blocks last) :
    ∀ block ∈ blocks, IsBlock graphs block := by
  induction h with
  | here => exact fun _ h => absurd h List.not_mem_nil
  | call hedge _ ih =>
    exact List.forall_mem_cons.2 ⟨(isBlock_of_mem_edges hedge).1, ih⟩

/-- Every block is run at least once along a chain. -/
theorem countAlong_pos {estimate : Nat} (h : 1 ≤ estimate)
    (hchain : (ofGraphs graphs).Chain first blocks last) (hplace : IsBlock graphs place) :
    1 ≤ Workload.countAlong (weightOf estimate graphs) blocks place := by
  have hprod : 0 < (blocks.map (weightOf estimate graphs)).prod := by
    refine List.prod_pos fun weight hweight => ?_
    obtain ⟨block, hblock, rfl⟩ := List.mem_map.mp hweight
    exact weightOf_pos h (hchain.isBlock block hblock)
  exact Nat.le_min.mpr ⟨Nat.mul_pos hprod (weightOf_pos h hplace), Count.greatest_pos⟩

/-- Where all chains are short, each routine is reached from a root. -/
theorem reached_workload {depth estimate routine : Nat} (hshort : ∀ first blocks last,
      (ofGraphs graphs).Chain first blocks last → blocks.length ≤ depth)
    (hroutine : routine < graphs.length) :
    ((ofGraphs graphs).workload estimate graphs).Reached
      ((ofGraphs graphs).roots graphs.length) routine := by
  obtain ⟨root, hroot, blocks, hchain⟩ := exists_root hshort hroutine
  exact ⟨root, hroot, blocks, chain_workload.2 hchain⟩

/-- Counts of one are not above the greatest counts along chains. -/
theorem countsOf_le {depth estimate : Nat} (h : 1 ≤ estimate)
    (hones : ∀ graph ∈ graphs, ∀ node ∈ graph.nodes, node.iterations = 1)
    (hshort : ∀ first blocks last, (ofGraphs graphs).Chain first blocks last →
      blocks.length ≤ depth) :
    countsOf graphs ≤ ((ofGraphs graphs).workload estimate graphs).greatestAlong
      ((ofGraphs graphs).roots graphs.length) := by
  intro place
  unfold countsOf
  split
  next node hnode =>
    obtain ⟨graph, hgraph, hnode⟩ := Option.bind_eq_some_iff.mp hnode
    rw [hones graph (List.mem_of_getElem? hgraph) node (Array.mem_of_getElem? hnode)]
    -- Some chain reaches the routine, and the count along it is positive.
    obtain ⟨root, hroot, blocks, hchain⟩ :=
      exists_root hshort (List.getElem?_eq_some_iff.mp hgraph).1
    exact Nat.le_trans (countAlong_pos h hchain
        ⟨graph, hgraph, (Array.getElem?_eq_some_iff.mp hnode).1⟩)
      (Workload.le_greatestAlong ⟨root, hroot, blocks, chain_workload.2 hchain, rfl⟩)
  next => exact Nat.zero_le _

/-- In a program in which no chain of calls has more than `maxDepth` calls, and so no routine calls
itself, the estimate of a block is the greatest of the products of weights along the chains of calls
that lead to its routine from one that is never called. -/
theorem isGreatest_estimate {assumptions : Assumptions} (hestimate : 1 ≤ assumptions.loopEstimate)
    (hones : ∀ graph ∈ graphs, ∀ node ∈ graph.nodes, node.iterations = 1)
    (hshort : ∀ first blocks last, (build graphs).value.Chain first blocks last →
      blocks.length ≤ assumptions.maxDepth)
    {routine : Nat} {graph : Graph} {id : BlockId} (hgraph : graphs[routine]? = some graph)
    (hid : id < graph.size) :
    ∃ current node,
      ((build graphs).value.estimate assumptions graphs).value[routine]? = some current ∧
      current.nodes[id]? = some node ∧ graph.block? id = some node.block ∧
      IsGreatest {count | ∃ root ∈ (build graphs).value.roots graphs.length, ∃ blocks,
          (build graphs).value.Chain root blocks routine ∧
          count = min ((blocks.map (weightOf assumptions.loopEstimate graphs)).prod *
            weightOf assumptions.loopEstimate graphs ⟨routine, id⟩) Count.greatest}
        node.iterations := by
  have htracks := tracks_estimate (ofGraphs graphs) assumptions graphs
  obtain ⟨current, hcurrent⟩ := htracks.exists_current hgraph
  have halike := htracks.alike routine graph current hgraph hcurrent
  obtain ⟨node, hnode⟩ := current.exists_node (halike.size ▸ hid)
  refine ⟨current, node, hcurrent, hnode, ?_, ?_⟩
  · rw [← halike.block id, Graph.block?, hnode, Option.map_some]
  · have hgreatest := Workload.isGreatest_visitAll ⟨routine, id⟩
      (fun root _ blocks last hchain => hshort root blocks last (chain_workload.1 hchain))
      (countsOf_le hestimate hones hshort)
      (reached_workload hshort (List.getElem?_eq_some_iff.mp hgraph).1)
      (mem_blocks_workload.2 ⟨graph, hgraph, hid⟩)
    rw [htracks.count routine current id node hcurrent hnode]
    simp only [Workload.CountsAlong, chain_workload] at hgreatest
    exact hgreatest

end CallGraph

/-- A loop that calls a routine twice, first through another one. -/
def sharedCallee : List Graph :=
  [{ Graph.ofBlocks "shared.s"
      [{ first := { address := 0, line := 0, label? := some "main" },
         rest := [{ address := 1, line := 1, operator := "bl", operands := "helper" }],
         successors := [1] },
       { first := { address := 2, line := 2, operator := "bl", operands := "leaf" },
         successors := [2] },
       { first := { address := 3, line := 3, operator := "bne", operands := "main" },
         successors := [0] }] with starts := [0] },
    { Graph.ofBlocks "shared.s"
      [{ first := { address := 4, line := 4, label? := some "helper" },
         rest := [{ address := 5, line := 5, operator := "bl", operands := "leaf" }] }]
      with starts := [0] },
    { Graph.ofBlocks "shared.s"
      [{ first := { address := 6, line := 6, label? := some "leaf" },
         rest := [{ address := 7, line := 7, operator := "bx", operands := "lr" }] }]
      with starts := [0] }]

/-- The theorem applied to `sharedCallee`, whose last routine is called from a loop and from another
routine. -/
theorem CallGraph.isGreatest_estimate_sharedCallee :
    let assumptions : Assumptions := { loopEstimate := 10, maxDepth := 2 }
    let calls := (CallGraph.build sharedCallee).value
    (∀ graph ∈ sharedCallee, ∀ node ∈ graph.nodes, node.iterations = 1) ∧
      (∀ first blocks last, calls.Chain first blocks last → blocks.length ≤ 2) ∧
      ∃ current node, (calls.estimate assumptions sharedCallee).value[2]? = some current ∧
        current.nodes[0]? = some node ∧
        IsGreatest {count | ∃ root ∈ calls.roots 3, ∃ blocks, calls.Chain root blocks 2 ∧
          count = min ((blocks.map (weightOf 10 sharedCallee)).prod *
            weightOf 10 sharedCallee ⟨2, 0⟩) Count.greatest} node.iterations := by
  have hones : ∀ graph ∈ sharedCallee, ∀ node ∈ graph.nodes, node.iterations = 1 := by decide
  have hrank : ∀ edge ∈ (CallGraph.build sharedCallee).value.edges,
      2 - edge.callee.routine < 2 - edge.caller.routine := by decide +kernel
  have hshort : ∀ first blocks last, (CallGraph.build sharedCallee).value.Chain first blocks last →
      blocks.length ≤ 2 := fun first _ _ hchain =>
    Nat.le_trans (hchain.length_le (fun routine => 2 - routine) hrank) (Nat.sub_le 2 first)
  have hestimate : 1 ≤ ({ loopEstimate := 10, maxDepth := 2 } : Assumptions).loopEstimate := by
    decide
  have hgraph : sharedCallee[2]? = some sharedCallee[2] := List.getElem?_eq_getElem _
  have hid : 0 < sharedCallee[2].size := by decide
  obtain ⟨current, node, hcurrent, hnode, _, hgreatest⟩ :=
    CallGraph.isGreatest_estimate hestimate hones hshort hgraph hid
  exact ⟨hones, hshort, current, node, hcurrent, hnode, hgreatest⟩

end RamOverlay
