import Mathlib.Data.List.Forall2
import Mathlib.Order.Basic
import RamOverlay.Proofs.Weight.Workload

/-!
# Estimates grow with what they assume

If loops are assumed to run more often, chains of calls to go deeper, or blocks had greater counts
before, then no count is smaller after an estimate. Routines may call themselves: the two estimates
then do not make the same visits, as the deeper one goes on where the other one stops.

* **`Workload.le_visit`**: a visit lowers no count.
* **`Workload.visit_le_visit`**: of two visits, the one with the greater weights, the greater depth
  and the greater counts before ends with the greater counts. The induction is on the smaller fuel,
  and inside it on the blocks; `le_visit` is what the deeper visit does when the other one is over.
* **`weightOf_le_weightOf`**: weights grow with the number of runs of a loop.
* **`CallGraph.estimate_le_estimate`**: both for the estimates of a program.
-/

namespace RamOverlay

namespace Workload

variable {load load' : Workload} {counts counts' : Counts} {routine base base' fuel fuel' : Nat}

/-! ## Counts that grow -/

/-- One block after the other, no count gets smaller. -/
theorem le_visitBlocks {visit : Nat → Nat → Counts → Counts}
    (hvisit : ∀ callee count counts, counts ≤ visit callee count counts) (ids : List BlockId)
    (counts : Counts) : counts ≤ load.visitBlocks base routine visit ids counts := by
  induction ids generalizing counts with
  | nil => exact le_rfl
  | cons id ids ih =>
    unfold visitBlocks
    have hraised : counts ≤ Function.update counts ⟨routine, id⟩
        (load.raised base counts ⟨routine, id⟩) :=
      le_update_iff.2 ⟨Nat.le_max_right _ _, fun _ _ => Nat.le_refl _⟩
    refine le_trans ?_ (ih _)
    exact List.foldlRecOn (load.callees ⟨routine, id⟩) _ hraised
      fun after hle callee _ => hle.trans (hvisit callee _ after)

/-- A visit makes no count smaller. -/
theorem le_visit (load : Workload) (fuel routine base : Nat) (counts : Counts) :
    counts ≤ load.visit fuel routine base counts := by
  induction fuel generalizing routine base counts with
  | zero => exact le_rfl
  | succ fuel ih =>
    unfold visit
    exact le_visitBlocks ih (load.blocks routine) counts

theorem le_visitAll (load : Workload) (depth : Nat) (roots : List Nat) (counts : Counts) :
    counts ≤ load.visitAll depth roots counts :=
  List.foldlRecOn roots _ le_rfl
    fun after hle root _ => hle.trans (load.le_visit (depth + 1) root 1 after)

/-! ## Two visits -/

/-- The workloads have the same blocks and calls, and the second one has no smaller weights. -/
structure Below (load load' : Workload) : Prop where
  blocks : load'.blocks = load.blocks
  callees : load'.callees = load.callees
  weight : ∀ block, load.weight block ≤ load'.weight block

theorem raised_le_raised (h : load.Below load') (hbase : base ≤ base') (hcounts : counts ≤ counts')
    (block : BlockRef) : load.raised base counts block ≤ load'.raised base' counts' block :=
  max_le_max (Count.mul_mono (h.weight block) hbase) (hcounts block)

/-- One block after the other, the second counts stay at least as great as the first ones. -/
theorem visitBlocks_le_visitBlocks {visit visit' : Nat → Nat → Counts → Counts}
    (h : load.Below load') (hbase : base ≤ base')
    (hvisit : ∀ callee count count' counts counts', count ≤ count' → counts ≤ counts' →
      visit callee count counts ≤ visit' callee count' counts')
    (ids : List BlockId) (hcounts : counts ≤ counts') :
    load.visitBlocks base routine visit ids counts ≤
      load'.visitBlocks base' routine visit' ids counts' := by
  induction ids generalizing counts counts' with
  | nil => exact hcounts
  | cons id ids ih =>
    unfold visitBlocks
    have hraised := raised_le_raised h hbase hcounts ⟨routine, id⟩
    apply ih
    rw [h.callees]
    -- The calls of the block are the same in both runs, and are visited side by side.
    apply List.foldl_rel
    · exact update_le_update_iff.2 ⟨hraised, fun block _ => hcounts block⟩
    · intro callee _ after after' hle
      exact hvisit callee _ _ after after' hraised hle

/-- With more fuel, a greater base, greater counts and greater weights, a visit ends with greater
counts. -/
theorem visit_le_visit (h : load.Below load') (hfuel : fuel ≤ fuel') (hbase : base ≤ base')
    (hcounts : counts ≤ counts') :
    load.visit fuel routine base counts ≤ load'.visit fuel' routine base' counts' := by
  induction fuel generalizing fuel' routine base base' counts counts' with
  | zero => exact hcounts.trans (load'.le_visit fuel' routine base' counts')
  | succ fuel ih =>
    -- the second visit has fuel left too, so both go through the same blocks
    obtain ⟨fuel', rfl⟩ : ∃ rest, fuel' = rest + 1 := ⟨fuel' - 1, by omega⟩
    unfold visit
    rw [h.blocks]
    apply visitBlocks_le_visitBlocks h hbase _ _ hcounts
    intro callee count count' counts counts' hcount hcounts
    exact ih (by omega) hcount hcounts

theorem visitAll_le_visitAll {depth depth' : Nat} (h : load.Below load') (hdepth : depth ≤ depth')
    (roots : List Nat) (hcounts : counts ≤ counts') :
    load.visitAll depth roots counts ≤ load'.visitAll depth' roots counts' := by
  apply List.foldl_rel hcounts
  intro root _ after after' hle
  exact visit_le_visit h (by omega) (Nat.le_refl 1) hle

end Workload

/-! ## Weights -/

theorem blockWeight_le_blockWeight {estimate estimate' : Nat} (h : estimate ≤ estimate')
    (depth : Nat) (isHeader : Bool) :
    blockWeight estimate depth isHeader ≤ blockWeight estimate' depth isHeader := by
  cases isHeader with
  | true => exact Nat.mul_le_mul (Nat.pow_le_pow_left h (depth + 1)) (Nat.succ_le_succ h)
  | false => exact Nat.pow_le_pow_left h depth

section Programs

variable {graphs graphs' : List Graph} {estimate estimate' routine : Nat}

/-- What stands at a place of one list is related to what stands there in the other. -/
theorem exists_getElem?_of_forall₂ {α β : Type} {r : α → β → Prop} {as : List α} {bs : List β}
    (h : List.Forall₂ r as bs) {i : Nat} {a : α} (ha : as[i]? = some a) :
    ∃ b, bs[i]? = some b ∧ r a b := by
  obtain ⟨hlt, rfl⟩ := List.getElem?_eq_some_iff.1 ha
  exact ⟨_, List.getElem?_eq_getElem (h.length_eq ▸ hlt), h.get hlt _⟩

/-- The weights of a block in graphs that are alike, for two numbers of runs of a loop. -/
theorem weightOf_le_weightOf (halike : List.Forall₂ Graph.Alike graphs graphs')
    (h : estimate ≤ estimate') (block : BlockRef) :
    weightOf estimate graphs block ≤ weightOf estimate' graphs' block := by
  unfold weightOf
  cases hgraph : graphs[block.routine]? with
  | none => exact Nat.zero_le _
  | some graph =>
    obtain ⟨graph', hgraph', hgraphs⟩ := exists_getElem?_of_forall₂ halike hgraph
    have hanalyzed := hgraphs.trans (Graph.alike_analyzeLoops graph')
    simp only [hgraph']
    rw [hanalyzed.loopHeadersOf (Graph.analyzed_analyzeLoops graph'),
      hgraphs.isLoopHeader_analyzeLoops]
    exact blockWeight_le_blockWeight h _ _

/-! ## Estimates of a program -/

/-- The graphs have the same blocks, and no block of the second one has a smaller count. -/
structure Graph.Below (graph graph' : Graph) : Prop where
  alike : graph.Alike graph'
  count : ∀ (id : BlockId) (node node' : Node), graph.nodes[id]? = some node →
    graph'.nodes[id]? = some node' → node.iterations ≤ node'.iterations

namespace CallGraph

variable {calls : CallGraph} {assumptions assumptions' : Assumptions} {counts counts' : Counts}
  {now now' : List Graph}

/-- The estimates of graphs that are alike read the same blocks and calls. -/
theorem workload_below (calls : CallGraph) (halike : List.Forall₂ Graph.Alike graphs graphs')
    (h : estimate ≤ estimate') :
    (calls.workload estimate graphs).Below (calls.workload estimate' graphs') where
  blocks := by
    funext routine
    unfold workload
    cases hgraph : graphs[routine]? with
    | none =>
      have hgraph' : graphs'[routine]? = none := by
        rw [List.getElem?_eq_none_iff] at hgraph ⊢
        exact halike.length_eq ▸ hgraph
      simp only [hgraph, hgraph']
    | some graph =>
      obtain ⟨graph', hgraph', hgraphs⟩ := exists_getElem?_of_forall₂ halike hgraph
      simp only [hgraph, hgraph', Graph.ids, hgraphs.size]
  callees := rfl
  weight := weightOf_le_weightOf halike h

theorem countsOf_le_countsOf (h : List.Forall₂ Graph.Below graphs graphs') :
    countsOf graphs ≤ countsOf graphs' := by
  intro block
  unfold countsOf
  cases hgraph : graphs[block.routine]? with
  | none => exact Nat.zero_le _
  | some graph =>
    obtain ⟨graph', hgraph', hbelow⟩ := exists_getElem?_of_forall₂ h hgraph
    rw [hgraph', Option.bind_some, Option.bind_some]
    cases hnode : graph.nodes[block.block]? with
    | none => exact Nat.zero_le _
    | some node =>
      -- Graphs that are alike have the same blocks, so the node has a partner.
      have hlt : block.block < graph'.size :=
        hbelow.alike.size ▸ (Array.getElem?_eq_some_iff.1 hnode).1
      obtain ⟨node', hnode'⟩ := graph'.exists_node hlt
      rw [hnode']
      exact hbelow.count block.block node node' hnode hnode'

/-- Two estimates compare as their counts do. -/
theorem below_of_tracks (halike : List.Forall₂ Graph.Alike graphs graphs')
    (h : Tracks graphs counts now) (h' : Tracks graphs' counts' now') (hle : counts ≤ counts') :
    List.Forall₂ Graph.Below now now' := by
  have hlength : now.length = now'.length := by rw [h.length, h'.length, halike.length_eq]
  refine List.forall₂_iff_get.2 ⟨hlength, fun routine hlt hlt' => ?_⟩
  have hcurrent : now[routine]? = some now[routine] := List.getElem?_eq_getElem hlt
  have hcurrent' : now'[routine]? = some now'[routine] := List.getElem?_eq_getElem hlt'
  obtain ⟨graph, hgraph⟩ : ∃ graph, graphs[routine]? = some graph :=
    ⟨_, List.getElem?_eq_getElem (h.length ▸ hlt)⟩
  obtain ⟨graph', hgraph', hgraphs⟩ := exists_getElem?_of_forall₂ halike hgraph
  constructor
  · -- both are alike to the graphs that the estimates began with
    have hnow := h.alike routine graph _ hgraph hcurrent
    exact (hnow.symm.trans hgraphs).trans (h'.alike routine graph' _ hgraph' hcurrent')
  · intro id node node' hnode hnode'
    rw [h.count routine _ id node hcurrent hnode, h'.count routine _ id node' hcurrent' hnode']
    exact hle ⟨routine, id⟩

/-- No count gets smaller by an estimate. -/
theorem below_estimate (calls : CallGraph) (assumptions : Assumptions) (graphs : List Graph) :
    List.Forall₂ Graph.Below graphs (calls.estimate assumptions graphs).value := by
  refine below_of_tracks (List.forall₂_same.2 fun graph _ => Graph.Alike.refl graph)
    (tracks_countsOf graphs) (tracks_estimate calls assumptions graphs) ?_
  exact Workload.le_visitAll _ _ _ (countsOf graphs)

/-- Estimates are monotone. Two programs have the same blocks, and no block of the second one has a
smaller count. If the second estimate takes loops to run at least as often and follows chains of
calls at least as far, no block of the second program has a smaller count after it; and in both
programs no block has a smaller count than before. -/
theorem estimate_le_estimate (hloop : assumptions.loopEstimate ≤ assumptions'.loopEstimate)
    (hdepth : assumptions.maxDepth ≤ assumptions'.maxDepth)
    (hgraphs : List.Forall₂ Graph.Below graphs graphs') :
    List.Forall₂ Graph.Below (calls.estimate assumptions graphs).value
        (calls.estimate assumptions' graphs').value ∧
      List.Forall₂ Graph.Below graphs (calls.estimate assumptions graphs).value ∧
      List.Forall₂ Graph.Below graphs' (calls.estimate assumptions' graphs').value := by
  refine ⟨?_, below_estimate calls assumptions graphs, below_estimate calls assumptions' graphs'⟩
  have halike := hgraphs.imp fun _ _ => Graph.Below.alike
  apply below_of_tracks halike (tracks_estimate calls assumptions graphs)
    (tracks_estimate calls assumptions' graphs')
  rw [halike.length_eq]
  exact Workload.visitAll_le_visitAll (workload_below calls halike hloop) hdepth _
    (countsOf_le_countsOf hgraphs)

end CallGraph

end Programs

/-- A loop that calls a routine that calls itself. -/
def countdown : List Graph :=
  [{ Graph.ofBlocks "countdown.s"
      [{ first := { address := 0, line := 0, label? := some "main" },
         rest := [{ address := 1, line := 1, operator := "bl", operands := "count" }],
         successors := [1] },
       { first := { address := 2, line := 2, operator := "bne", operands := "main" },
         successors := [0] }] with starts := [0] },
    { Graph.ofBlocks "countdown.s"
      [{ first := { address := 3, line := 3, label? := some "count" },
         rest := [{ address := 4, line := 4, operator := "bl", operands := "count" }],
         successors := [1] },
       { first := { address := 5, line := 5, operator := "bx", operands := "lr" } }]
      with starts := [0] }]

/-- The graphs of `countdown`, with a greater count for the first block of each routine. -/
def countdownMeasured : List Graph :=
  countdown.map fun graph => graph.modify 0 fun node => { node with iterations := 7 }

/-- The theorem applied to `countdown`, with greater counts, a greater loop estimate and longer
chains. -/
theorem CallGraph.estimate_le_estimate_countdown :
    let shallow : Assumptions := { loopEstimate := 10, maxDepth := 2 }
    let deep : Assumptions := { loopEstimate := 20, maxDepth := 5 }
    let calls := (CallGraph.build countdown).value
    shallow.loopEstimate ≤ deep.loopEstimate ∧ shallow.maxDepth ≤ deep.maxDepth ∧
      List.Forall₂ Graph.Below countdown countdownMeasured ∧
      List.Forall₂ Graph.Below (calls.estimate shallow countdown).value
        (calls.estimate deep countdownMeasured).value ∧
      List.Forall₂ Graph.Below countdown (calls.estimate shallow countdown).value ∧
      List.Forall₂ Graph.Below countdownMeasured (calls.estimate deep countdownMeasured).value := by
  intro shallow deep calls
  have hloop : shallow.loopEstimate ≤ deep.loopEstimate := by decide
  have hdepth : shallow.maxDepth ≤ deep.maxDepth := by decide
  have hones : ∀ graph ∈ countdown, ∀ node ∈ graph.nodes, node.iterations = 1 := by decide
  have hgraphs : List.Forall₂ Graph.Below countdown countdownMeasured := by
    unfold countdownMeasured
    rw [List.forall₂_map_right_iff, List.forall₂_same]
    refine fun graph hgraph => ⟨graph.alike_modify 0 7, fun id node node' hnode hnode' => ?_⟩
    rw [Graph.getElem?_modify, hnode, Option.map_some, Option.some_inj] at hnode'
    have hone := hones graph hgraph node (Array.mem_of_getElem? hnode)
    split at hnode' <;> subst hnode'
    · rw [hone]
      show 1 ≤ 7
      omega
    · exact Nat.le_refl _
  exact ⟨hloop, hdepth, hgraphs, CallGraph.estimate_le_estimate hloop hdepth hgraphs⟩

end RamOverlay
