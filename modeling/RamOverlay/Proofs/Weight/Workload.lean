import Mathlib.Logic.Function.Basic
import RamOverlay.Proofs.Loop.Reanalysis
import RamOverlay.Weight.Estimate

/-!
# Estimates as counts

An estimate reads the weights of the blocks of a program and the calls between its routines, and
changes nothing but counts, headers apart.

* **`Workload`**: what an estimate reads. `Workload.visit` follows the calls from a routine as
  `CallGraph.propagate` does, on bare counts.
* **`Tracks`**: the graphs of a program at some time of an estimate, with the counts of their
  blocks.
* **`tracks_propagate`**: a visit of the counts goes along with the estimate of a routine. The
  induction is on the fuel, and inside it on the blocks.
* **`tracks_estimate`**: so does the estimate of a program.
-/

namespace RamOverlay

/-! ## Weights -/

/-- How often a block at a nesting depth is run, for one run of its routine. -/
def blockWeight (estimate depth : Nat) (isHeader : Bool) : Nat :=
  if isHeader then Nat.pow estimate (depth + 1) * (estimate + 1) else Nat.pow estimate depth

namespace Count

theorem cut_of_le {n : Nat} (h : n ≤ greatest) : cut n = n := Nat.min_eq_left h

theorem greatest_pos : 0 < greatest := by decide

/-- A factor may be cut before the product is. -/
theorem cut_mul_cut (a b : Nat) : cut (cut a * b) = cut (a * b) := by
  by_cases ha : a ≤ greatest
  · rw [cut_of_le ha]
  · have ha := Nat.lt_of_not_le ha
    have hcut : cut a = greatest := Nat.min_eq_right (Nat.le_of_lt ha)
    cases b with
    | zero => rfl
    | succ b =>
      have hle : greatest ≤ greatest * (b + 1) := Nat.le_mul_of_pos_right _ (Nat.succ_pos b)
      have hle' : greatest ≤ a * (b + 1) :=
        Nat.le_trans hle (Nat.mul_le_mul_right _ (Nat.le_of_lt ha))
      rw [hcut]
      exact (Nat.min_eq_right hle).trans (Nat.min_eq_right hle').symm

theorem mul_cut_left (a b : Nat) : mul (cut a) b = mul a b := cut_mul_cut a b

theorem mul_cut_right (a b : Nat) : mul a (cut b) = mul a b := by
  unfold mul
  rw [Nat.mul_comm a, cut_mul_cut, Nat.mul_comm]

end Count

/-- The count of a block is its weight times the count of its routine, cut off. -/
theorem blockCount_eq (estimate base depth : Nat) (isHeader : Bool) :
    blockCount estimate base depth isHeader =
      Count.mul (blockWeight estimate depth isHeader) base := by
  unfold blockCount blockWeight
  cases isHeader with
  | false => exact Count.mul_cut_left _ base
  | true =>
    show Count.mul (Count.mul (Count.cut (Nat.pow estimate (depth + 1))) (Count.cut (estimate + 1)))
      base = _
    rw [Count.mul_cut_left, Count.mul_cut_right]
    exact Count.mul_cut_left _ base

/-- How often a block is run, for one run of its routine, as an analysis of its loops tells. -/
def weightOf (estimate : Nat) (graphs : List Graph) (block : BlockRef) : Nat :=
  match graphs[block.routine]? with
  | some graph =>
    let analyzed := graph.analyzeLoops.value
    blockWeight estimate (analyzed.loopHeadersOf block.block).value.length
      (analyzed.isLoopHeader block.block)
  | none => 0

/-! ## Visits -/

/-- How often each block is run. -/
abbrev Counts := BlockRef → Nat

/-- What the estimate reads of a program. -/
structure Workload where
  /-- The blocks of a routine, in order. -/
  blocks : Nat → List BlockId
  weight : BlockRef → Nat
  /-- The routines that a block calls, in order. -/
  callees : BlockRef → List Nat

namespace Workload

variable (load : Workload)

/-- The count of a block in a routine that is run `base` times, or the count that it has if that is
greater. -/
def raised (base : Nat) (counts : Counts) (block : BlockRef) : Nat :=
  max (Count.mul (load.weight block) base) (counts block)

/-- Raises the counts of the blocks of a routine one after the other; `visit` goes into a called
routine. -/
def visitBlocks (base routine : Nat) (visit : Nat → Nat → Counts → Counts) :
    List BlockId → Counts → Counts
  | [], counts => counts
  | id :: rest, counts =>
    let count := load.raised base counts ⟨routine, id⟩
    visitBlocks base routine visit rest <|
      (load.callees ⟨routine, id⟩).foldl (fun counts callee => visit callee count counts)
        (Function.update counts ⟨routine, id⟩ count)

/-- Raises the counts of a routine that is run `base` times, and of all that it calls. -/
def visit : Nat → Nat → Nat → Counts → Counts
  | 0, _, _, counts => counts
  | fuel + 1, routine, base, counts =>
    load.visitBlocks base routine (visit fuel) (load.blocks routine) counts

/-- Visits the roots, each run once; calls that follow more than `depth` others are not visited. -/
def visitAll (depth : Nat) (roots : List Nat) (counts : Counts) : Counts :=
  roots.foldl (fun counts root => load.visit (depth + 1) root 1 counts) counts

end Workload

/-- What an estimate of the counts of a program reads. -/
def CallGraph.workload (calls : CallGraph) (estimate : Nat) (graphs : List Graph) : Workload where
  blocks routine :=
    match graphs[routine]? with
    | some graph => graph.ids
    | none => []
  weight := weightOf estimate graphs
  callees block := (calls.callsFrom block).map (·.callee.routine)

/-! ## The graphs of a program during an estimate -/

/-- The graphs `now` are those of the program, and their blocks have the counts. -/
structure Tracks (graphs : List Graph) (counts : Counts) (now : List Graph) : Prop where
  length : now.length = graphs.length
  alike : ∀ (routine : Nat) (graph current : Graph), graphs[routine]? = some graph →
    now[routine]? = some current → graph.Alike current
  count : ∀ (routine : Nat) (current : Graph) (id : BlockId) (node : Node),
    now[routine]? = some current → current.nodes[id]? = some node →
      node.iterations = counts ⟨routine, id⟩

/-- The loops of a routine are known. -/
def AnalyzedAt (graphs : List Graph) (routine : Nat) : Prop :=
  ∀ graph, graphs[routine]? = some graph → graph.Analyzed

namespace Graph

variable {graph : Graph}

theorem getElem?_modify (graph : Graph) (id other : BlockId) (f : Node → Node) :
    (graph.modify id f).nodes[other]? =
      graph.nodes[other]?.map fun node => if id = other then f node else node := by
  unfold modify
  rw [Array.getElem?_modify]
  split
  next => rfl
  next => exact (congrFun Option.map_id _).symm

/-- Setting a count leaves the blocks and their edges alone. -/
theorem alike_modify (graph : Graph) (id : BlockId) (count : Nat) :
    graph.Alike (graph.modify id fun node => { node with iterations := count }) where
  unit := rfl
  starts := rfl
  block other := by
    unfold block?
    rw [getElem?_modify, Option.map_map]
    refine congrArg (graph.nodes[other]?.map ·) (funext fun node => ?_)
    rw [Function.comp_apply]
    split <;> rfl

theorem linksOf_modify (graph : Graph) (id other : BlockId) (count : Nat) :
    (graph.modify id fun node => { node with iterations := count }).linksOf other =
      graph.linksOf other := by
  unfold linksOf
  rw [getElem?_modify]
  cases graph.nodes[other]? with
  | none => rfl
  | some node => by_cases heq : id = other <;> simp [heq]

theorem isLoopHeader_modify (graph : Graph) (id other : BlockId) (count : Nat) :
    (graph.modify id fun node => { node with iterations := count }).isLoopHeader other =
      graph.isLoopHeader other := by
  unfold isLoopHeader
  rw [getElem?_modify]
  cases graph.nodes[other]? with
  | none => rfl
  | some node => by_cases heq : id = other <;> simp [heq]

theorem Analyzed.modify (h : graph.Analyzed) (id : BlockId) (count : Nat) :
    (graph.modify id fun node => { node with iterations := count }).Analyzed where
  links other := by
    rw [linksOf_modify, h.links, (alike_modify graph id count).linksOf_analyzeLoops]
  header other := by
    rw [isLoopHeader_modify, h.header, (alike_modify graph id count).isLoopHeader_analyzeLoops]

end Graph

theorem Traced.value_foldlM {α β : Type} (f : β → α → Traced β) (as : List α) (b : β) :
    (as.foldlM f b).value = as.foldl (fun b a => (f b a).value) b := by
  induction as generalizing b with
  | nil => rfl
  | cons a as ih =>
    rw [List.foldlM_cons, value_bind, ih]
    rfl

namespace Tracks

variable {graphs now : List Graph} {counts : Counts} {routine : Nat} {graph current : Graph}
  {id : BlockId} {node : Node}

theorem getElem?_setRoutine (hcurrent : now[routine]? = some current) (next : Graph) (r : Nat) :
    (CallGraph.setRoutine now routine next)[r]? = if routine = r then some next else now[r]? := by
  rw [CallGraph.setRoutine, List.getElem?_set, if_pos (List.getElem?_eq_some_iff.mp hcurrent).1]

/-- A routine is replaced by one with the same blocks. -/
theorem setRoutine {counts' : Counts} {next : Graph} (h : Tracks graphs counts now)
    (hcurrent : now[routine]? = some current) (halike : current.Alike next)
    (hcount : ∀ id node, next.nodes[id]? = some node → node.iterations = counts' ⟨routine, id⟩)
    (hothers : ∀ block : BlockRef, block.routine ≠ routine → counts' block = counts block) :
    Tracks graphs counts' (CallGraph.setRoutine now routine next) where
  length := (List.length_set ..).trans h.length
  -- The replaced routine is alike through its old graph, the others did not change.
  alike r graph current' hgraph hcurrent' := by
    rw [getElem?_setRoutine hcurrent] at hcurrent'
    split at hcurrent'
    next heq =>
      obtain rfl := Option.some.inj hcurrent'
      exact (h.alike r graph current hgraph (heq ▸ hcurrent)).trans halike
    next => exact h.alike r graph current' hgraph hcurrent'
  count r current' id node hcurrent' hnode := by
    rw [getElem?_setRoutine hcurrent] at hcurrent'
    split at hcurrent'
    next heq =>
      obtain rfl := Option.some.inj hcurrent'
      exact heq ▸ hcount id node hnode
    next hne =>
      rw [hothers ⟨r, id⟩ fun heq => hne heq.symm]
      exact h.count r current' id node hcurrent' hnode

theorem analyzedAt_setRoutine {next : Graph} {r : Nat} (hcurrent : now[routine]? = some current)
    (hnext : next.Analyzed) (h : AnalyzedAt now r ∨ r = routine) :
    AnalyzedAt (CallGraph.setRoutine now routine next) r := by
  intro graph hgraph
  rw [getElem?_setRoutine hcurrent] at hgraph
  split at hgraph
  next =>
    obtain rfl := Option.some.inj hgraph
    exact hnext
  next hne => exact (h.resolve_right fun heq => hne heq.symm) graph hgraph

theorem exists_current (h : Tracks graphs counts now) (hgraph : graphs[routine]? = some graph) :
    ∃ current, now[routine]? = some current :=
  ⟨_, List.getElem?_eq_getElem (h.length ▸ (List.getElem?_eq_some_iff.mp hgraph).1)⟩

/-- The loops of a routine are analysed. -/
theorem analyze (h : Tracks graphs counts now) (hcurrent : now[routine]? = some current) :
    Tracks graphs counts (CallGraph.setRoutine now routine current.analyzeLoops.value) := by
  refine h.setRoutine hcurrent (Graph.alike_analyzeLoops current) (fun id node hnode => ?_)
    fun _ _ => rfl
  change (Array.mapIdx _ current.nodes)[id]? = some node at hnode
  rw [Array.getElem?_mapIdx] at hnode
  obtain ⟨node', hnode', rfl⟩ := Option.map_eq_some_iff.mp hnode
  exact h.count routine current id node' hcurrent hnode'

/-- The count of a block is set. -/
theorem setCount (h : Tracks graphs counts now) (hcurrent : now[routine]? = some current)
    (id : BlockId) (count : Nat) :
    Tracks graphs (Function.update counts ⟨routine, id⟩ count)
      (CallGraph.setRoutine now routine
        (current.modify id fun node => { node with iterations := count })) := by
  refine h.setRoutine hcurrent (Graph.alike_modify current id count) (fun other node hnode => ?_)
    fun block hne => Function.update_of_ne (fun heq => hne (by rw [heq])) _ _
  -- Only the count of the block itself is new, in the graph and in the table.
  rw [Graph.getElem?_modify] at hnode
  obtain ⟨node', hnode', rfl⟩ := Option.map_eq_some_iff.mp hnode
  split
  next heq => rw [heq, Function.update_self]
  next hne =>
    rw [Function.update_of_ne fun heq => hne (BlockRef.mk.inj heq).2.symm]
    exact h.count routine current other node' hcurrent hnode'

/-- The new count of a block is the raised one. -/
theorem value_countOf (h : Tracks graphs counts now) (hgraph : graphs[routine]? = some graph)
    (hcurrent : now[routine]? = some current) (hnode : current.nodes[id]? = some node)
    (hanalyzed : AnalyzedAt now routine) (calls : CallGraph) (estimate base : Nat) :
    (current.countOf estimate base id node).value =
      (calls.workload estimate graphs).raised base counts ⟨routine, id⟩ := by
  have halike := h.alike routine graph current hgraph hcurrent
  have hanalyzed := hanalyzed current hcurrent
  unfold Graph.countOf Workload.raised CallGraph.workload weightOf
  simp only [Traced.value_bind, Traced.value_pure, hgraph]
  rw [halike.loopHeadersOf hanalyzed, (hanalyzed.header id).trans
    (halike.isLoopHeader_analyzeLoops id), blockCount_eq,
    h.count routine current id node hcurrent hnode]

end Tracks

namespace CallGraph

variable {calls : CallGraph} {graphs now : List Graph} {counts : Counts} {routine : Nat}
  {assumptions : Assumptions}

/-- `visit` of counts goes along with `visitGraphs`, which forgets no loops. -/
def GoesAlong (graphs : List Graph) (visit : Nat → Nat → Counts → Counts)
    (visitGraphs : Nat → Nat → List Graph → Traced (List Graph)) : Prop :=
  ∀ routine base counts now, Tracks graphs counts now →
    Tracks graphs (visit routine base counts) (visitGraphs routine base now).value ∧
      ∀ r, AnalyzedAt now r → AnalyzedAt (visitGraphs routine base now).value r

/-- One called routine after the other. -/
theorem tracks_foldl {visit : Nat → Nat → Counts → Counts}
    {visitGraphs : Nat → Nat → List Graph → Traced (List Graph)}
    (hvisit : GoesAlong graphs visit visitGraphs) (count : Nat) (edges : List CallEdge)
    (h : Tracks graphs counts now) :
    Tracks graphs ((edges.map (·.callee.routine)).foldl
        (fun counts callee => visit callee count counts) counts)
      (edges.foldlM (fun now edge => visitGraphs edge.callee.routine count now) now).value ∧
    ∀ r, AnalyzedAt now r → AnalyzedAt
      (edges.foldlM (fun now edge => visitGraphs edge.callee.routine count now) now).value r := by
  rw [Traced.value_foldlM]
  induction edges generalizing counts now with
  | nil => exact ⟨h, fun _ => id⟩
  | cons edge edges ih =>
    -- A visit keeps the analyzed routines, so those of the first call are kept by the rest.
    obtain ⟨hfirst, hkept⟩ := hvisit edge.callee.routine count counts now h
    obtain ⟨hrest, hkept'⟩ := ih hfirst
    exact ⟨hrest, fun r hr => hkept' r (hkept r hr)⟩

theorem tracks_estimateBlocks (calls : CallGraph) (estimate base : Nat)
    {visit : Nat → Nat → Counts → Counts}
    {visitGraphs : Nat → Nat → List Graph → Traced (List Graph)} {graph : Graph}
    (hvisit : GoesAlong graphs visit visitGraphs) (hgraph : graphs[routine]? = some graph)
    {ids : List BlockId} (hids : ∀ id ∈ ids, id < graph.size) (h : Tracks graphs counts now)
    (hanalyzed : AnalyzedAt now routine) :
    Tracks graphs ((calls.workload estimate graphs).visitBlocks base routine visit ids counts)
      (calls.estimateBlocks estimate base routine visitGraphs ids now).value ∧
    ∀ r, AnalyzedAt now r →
      AnalyzedAt (calls.estimateBlocks estimate base routine visitGraphs ids now).value r := by
  induction ids generalizing counts now with
  | nil => exact ⟨h, fun _ => id⟩
  | cons id ids ih =>
    obtain ⟨current, hcurrent⟩ := h.exists_current hgraph
    have hlt : id < current.size :=
      (h.alike routine graph current hgraph hcurrent).size ▸ hids id List.mem_cons_self
    obtain ⟨node, hnode⟩ := current.exists_node hlt
    unfold estimateBlocks Workload.visitBlocks
    simp only [hcurrent, hnode, Traced.value_bind]
    rw [h.value_countOf hgraph hcurrent hnode hanalyzed calls]
    generalize (calls.workload estimate graphs).raised base counts ⟨routine, id⟩ = count
    -- the count is set, then the callees are visited, then the other blocks
    have hset := h.setCount hcurrent id count
    have hkept : ∀ r, AnalyzedAt now r → AnalyzedAt (setRoutine now routine
        (current.modify id fun node => { node with iterations := count })) r := fun r hr =>
      Tracks.analyzedAt_setRoutine hcurrent ((hanalyzed current hcurrent).modify id count) (.inl hr)
    obtain ⟨hcalls, hkept'⟩ := tracks_foldl hvisit count (calls.callsFrom ⟨routine, id⟩) hset
    obtain ⟨hrest, hkept''⟩ := ih (fun id hid => hids id (List.mem_cons_of_mem _ hid)) hcalls
      (hkept' routine (hkept routine hanalyzed))
    exact ⟨hrest, fun r hr => hkept'' r (hkept' r (hkept r hr))⟩

theorem blocks_workload {graph : Graph} (hgraph : graphs[routine]? = some graph) (estimate : Nat) :
    (calls.workload estimate graphs).blocks routine = graph.ids := by
  simp only [workload, hgraph]

/-- A visit of the counts goes along with the estimate of a routine. -/
theorem tracks_propagate (calls : CallGraph) (assumptions : Assumptions) (graphs : List Graph)
    (fuel : Nat) : GoesAlong graphs
      ((calls.workload assumptions.loopEstimate graphs).visit fuel)
      (calls.propagate assumptions fuel) := by
  induction fuel with
  | zero =>
    intro routine base counts now h
    unfold propagate
    split <;> exact ⟨h, fun _ => id⟩
  | succ fuel ih =>
    intro routine base counts now h
    unfold propagate Workload.visit
    split
    next hcurrent =>
      -- there is no such routine, and so no block of it
      have hnone : graphs[routine]? = none := by
        rw [List.getElem?_eq_none_iff] at hcurrent ⊢
        exact h.length ▸ hcurrent
      have hblocks : (calls.workload assumptions.loopEstimate graphs).blocks routine = [] := by
        simp only [workload, hnone]
      rw [hblocks]
      exact ⟨h, fun _ => id⟩
    next current hcurrent =>
      -- the routine is analysed again before its blocks are visited
      have hlt : routine < graphs.length := h.length ▸ (List.getElem?_eq_some_iff.mp hcurrent).1
      obtain ⟨graph, hgraph⟩ : ∃ graph, graphs[routine]? = some graph :=
        ⟨graphs[routine], List.getElem?_eq_getElem hlt⟩
      have hids : current.analyzeLoops.value.ids = graph.ids := by
        unfold Graph.ids
        rw [(Graph.alike_analyzeLoops current).size,
          (h.alike routine graph current hgraph hcurrent).size]
      have hanalyzed := Graph.analyzed_analyzeLoops current
      rw [blocks_workload hgraph, Traced.value_bind, hids]
      have hids' : ∀ id ∈ graph.ids, id < graph.size := fun id hid => List.mem_range.mp hid
      obtain ⟨htracks, hkept⟩ := tracks_estimateBlocks calls assumptions.loopEstimate base ih hgraph
        hids' (h.analyze hcurrent)
        (Tracks.analyzedAt_setRoutine hcurrent hanalyzed (.inr rfl))
      exact ⟨htracks, fun r hr =>
        hkept r (Tracks.analyzedAt_setRoutine hcurrent hanalyzed (.inl hr))⟩

/-- The graphs have the counts of the workload, after all roots. -/
theorem tracks_propagateAll (calls : CallGraph) (assumptions : Assumptions)
    (h : Tracks graphs counts now) (roots : List Nat) :
    Tracks graphs ((calls.workload assumptions.loopEstimate graphs).visitAll assumptions.maxDepth
      roots counts) (calls.propagateAll assumptions roots now).value := by
  induction roots generalizing counts now with
  | nil => exact h
  | cons root roots ih =>
    exact ih (tracks_propagate calls assumptions graphs _ root 1 counts now h).1

/-- The counts of a program. -/
def countsOf (graphs : List Graph) : Counts := fun block =>
  match graphs[block.routine]?.bind (·.nodes[block.block]?) with
  | some node => node.iterations
  | none => 0

theorem tracks_countsOf (graphs : List Graph) : Tracks graphs (countsOf graphs) graphs where
  length := rfl
  alike routine graph current hgraph hcurrent := by
    obtain rfl := Option.some.inj (hgraph.symm.trans hcurrent)
    exact .refl graph
  count routine current id node hcurrent hnode := by
    simp only [countsOf, hcurrent, Option.bind_some, hnode]

/-- An estimate visits the routines that are never called. -/
theorem tracks_estimate (calls : CallGraph) (assumptions : Assumptions) (graphs : List Graph) :
    Tracks graphs ((calls.workload assumptions.loopEstimate graphs).visitAll assumptions.maxDepth
      (calls.roots graphs.length) (countsOf graphs)) (calls.estimate assumptions graphs).value := by
  have h := tracks_propagateAll calls assumptions (tracks_countsOf graphs)
    (calls.roots graphs.length)
  unfold estimate
  dsimp only
  split <;> exact h

end CallGraph

end RamOverlay
