import Mathlib.Data.List.Nodup
import RamOverlay.Proofs.Weight.CallChain
import RamOverlay.Proofs.Weight.Renaming

/-!
# Call graphs without the numbers of the routines

The routines of a program are listed unit after unit. Another order of the units gives them other
numbers; the calls between them stay the same if the labels of the units are different.

* **`flatMap_eq_of_perm`**: a list made unit after unit does not depend on the order of the units if
  at most one of them contributes to it.
* **`Arranged`**: a list of different routines, each a graph with its place in its unit.
* **`Arranged.callees_workload`**: which routines a block calls, told by the routines themselves.
* **`Arranged.roots_eq`**: which routines are never called.
* **`Arranged.renamed`**: two arrangements of the same routines with the same entrances.
* **`Arranged.agree_visitAll`**: when visits of both come to the same counts.
-/

namespace RamOverlay

/-! ## Lists -/

section Lists

variable {α β κ : Type}

/-- If at most one element contributes, the order does not matter. -/
theorem flatMap_eq_of_perm {as as' : List α} {f : α → List β} (h : as.Perm as')
    (hone : as.Pairwise fun a b => f a = [] ∨ f b = []) : as.flatMap f = as'.flatMap f := by
  induction h with
  | nil => rfl
  | cons a _ ih => rw [List.flatMap_cons, List.flatMap_cons, ih (List.pairwise_cons.1 hone).2]
  | swap a b as =>
    simp only [List.flatMap_cons]
    rcases (List.pairwise_cons.1 hone).1 a List.mem_cons_self with h | h <;> simp [h]
  | trans h _ ih ih' =>
    exact (ih hone).trans (ih' ((h.pairwise_iff fun hor => hor.symm).1 hone))

variable [DecidableEq κ]

theorem filter_eq_singleton {key : α → κ} {as : List α} {a : α}
    (hkeys : as.Pairwise fun a b => key a ≠ key b) (ha : a ∈ as) :
    as.filter (fun b => key b == key a) = [a] := by
  induction as with
  | nil => exact absurd ha List.not_mem_nil
  | cons b as ih =>
    obtain ⟨hb, hkeys⟩ := List.pairwise_cons.1 hkeys
    rcases List.mem_cons.1 ha with rfl | ha
    · rw [List.filter_cons_of_pos (by simp), List.filter_eq_nil_iff.2]
      exact fun b' hb' heq => hb b' hb' (beq_iff_eq.1 heq).symm
    · rw [List.filter_cons_of_neg (by simpa using hb a ha), ih hkeys ha]

theorem filter_flatMap_of_key (key : α → κ) {key' : β → κ} {f : α → List β}
    (hkey : ∀ a, ∀ b ∈ f a, key' b = key a) (k : κ) (as : List α) :
    (as.flatMap f).filter (fun b => key' b == k) =
      (as.filter fun a => key a == k).flatMap f := by
  induction as with
  | nil => rfl
  | cons a as ih =>
    rw [List.flatMap_cons, List.filter_append, ih, List.filter_cons]
    split
    next heq =>
      rw [List.flatMap_cons, List.filter_eq_self.2 fun b hb => by rw [hkey a b hb, heq]]
    next hne =>
      rw [List.filter_eq_nil_iff.2 fun b hb => by rw [hkey a b hb]; exact hne, List.nil_append]

end Lists

/-! ## The calls of a block -/

namespace CallGraph

variable {graphs : List Graph} {place : BlockRef} {block : Block}

/-- The labels that a block calls, in order. -/
def calledLabels (block : Block) : List String := block.calls.filterMap (·.destination.label?)

theorem pairwise_blocks (graphs : List Graph) :
    (blocks graphs).Pairwise fun entry entry' => entry.1 ≠ entry'.1 := by
  unfold blocks
  rw [List.pairwise_flatMap]
  refine ⟨fun entry _ => ?_, ?_⟩
  · rw [List.pairwise_map]
    exact (Graph.pairwise_entries entry.1).imp fun hne heq => hne (BlockRef.mk.inj heq).2
  · -- Blocks of two routines differ in the number of the routine.
    have hnumbers : (graphs.zipIdx.map (·.2)).Pairwise (· ≠ ·) := by
      rw [List.zipIdx_map_snd]
      exact List.nodup_range'
    rw [List.pairwise_map] at hnumbers
    refine hnumbers.imp fun hne x hx y hy heq => ?_
    obtain ⟨_, _, rfl⟩ := List.mem_map.1 hx
    obtain ⟨_, _, rfl⟩ := List.mem_map.1 hy
    exact hne (BlockRef.mk.inj heq).1

/-- The edges block by block: a call has one if its label names an entrance. -/
theorem edges_ofGraphs (graphs : List Graph) : (ofGraphs graphs).edges =
    (blocks graphs).flatMap fun (place, block) => (calledLabels block).filterMap fun label =>
      (entrance? (entrances graphs) label).map fun callee => ⟨place, callee⟩ := by
  show (sites graphs).filterMap _ = _
  unfold sites
  rw [List.filterMap_flatMap]
  refine congrArg (List.flatMap · _) (funext fun entry => ?_)
  exact List.filterMap_map

/-- The calls of a block, in the order of its instructions. -/
theorem callsFrom_ofGraphs {graph : Graph} (hgraph : graphs[place.routine]? = some graph)
    (hblock : graph.block? place.block = some block) :
    (ofGraphs graphs).callsFrom place = (calledLabels block).filterMap fun label =>
      (entrance? (entrances graphs) label).map fun callee => ⟨place, callee⟩ := by
  have hone := filter_eq_singleton (pairwise_blocks graphs)
    (mem_blocks_iff.2 (block?_eq_some_iff.2 ⟨graph, hgraph, hblock⟩))
  unfold callsFrom
  rw [edges_ofGraphs, filter_flatMap_of_key Prod.fst (fun entry edge hedge => ?_), hone,
    List.flatMap_singleton]
  obtain ⟨_, _, hedge⟩ := List.mem_filterMap.1 hedge
  obtain ⟨_, _, rfl⟩ := Option.map_eq_some_iff.1 hedge
  rfl

end CallGraph
/-! ## Routines and their places -/

/-- A routine of a program: its graph, with its place in its unit. -/
abbrev Routine := Graph × Nat

namespace Routine

/-- The blocks of a routine that start with a label. -/
def labelled (label : String) (routine : Routine) : List (Routine × BlockId) :=
  (routine.1.entries.filter fun (_, node) => node.block.label? == some label).map
    fun (id, _) => (routine, id)

/-- The last block of a program that starts with a label. -/
def entrance? (routines : List Routine) (label : String) : Option (Routine × BlockId) :=
  (routines.flatMap (labelled label)).getLast?

/-- The routines that a block calls, in order. -/
def callees (routines : List Routine) (routine : Routine) (id : BlockId) : List Routine :=
  match routine.1.block? id with
  | some block => (CallGraph.calledLabels block).filterMap fun label =>
      (entrance? routines label).map (·.1)
  | none => []

/-- A block of some routine calls the routine. -/
def IsCalled (routines : List Routine) (routine : Routine) : Prop :=
  ∃ caller ∈ routines, ∃ id, routine ∈ callees routines caller id

/-- What is called is one of the routines. -/
theorem mem_of_mem_callees {routines : List Routine} {routine callee : Routine} {id : BlockId}
    (hcallee : callee ∈ callees routines routine id) : callee ∈ routines := by
  unfold callees at hcallee
  split at hcallee
  next =>
    obtain ⟨label, _, hcallee⟩ := List.mem_filterMap.1 hcallee
    obtain ⟨place, hplace, rfl⟩ := Option.map_eq_some_iff.1 hcallee
    obtain ⟨r, hr, hmem⟩ := List.mem_flatMap.1 (List.mem_of_getLast? hplace)
    obtain ⟨_, _, rfl⟩ := List.mem_map.1 hmem
    exact hr
  next => cases hcallee

end Routine

/-- The graphs are those of the routines, which are all different. -/
structure Arranged (graphs : List Graph) (routines : List Routine) : Prop where
  graphs : graphs = routines.map (·.1)
  nodup : routines.Nodup

namespace Arranged

open CallGraph (blocks entrances ofGraphs)

variable {graphs graphs' : List Graph} {routines routines' : List Routine} {routine : Routine}
  {id : BlockId} {label : String}

section One

variable (h : Arranged graphs routines)
include h

theorem getElem?_idxOf (hroutine : routine ∈ routines) :
    graphs[routines.idxOf routine]? = some routine.1 := by
  rw [h.graphs, List.getElem?_map, List.getElem?_idxOf hroutine, Option.map_some]

theorem length_eq : graphs.length = routines.length := by
  rw [h.graphs, List.length_map]

theorem exists_routine {i : Nat} (hi : i < graphs.length) :
    ∃ routine ∈ routines, routines.idxOf routine = i := by
  rw [h.length_eq] at hi
  exact ⟨_, List.getElem_mem hi, h.nodup.idxOf_getElem i hi⟩

theorem map_idxOf : routines.map routines.idxOf = List.range graphs.length := by
  refine List.ext_getElem (by simp [h.length_eq]) fun i hi _ => ?_
  rw [List.getElem_map, List.getElem_range]
  exact h.nodup.idxOf_getElem i (by simpa using hi)

theorem zipIdx_eq : graphs.zipIdx = routines.map fun r => (r.1, routines.idxOf r) := by
  rw [h.graphs]
  refine List.ext_getElem (by simp) fun i hi _ => ?_
  have hi : i < routines.length := by simpa using hi
  rw [List.getElem_zipIdx, List.getElem_map, List.getElem_map, h.nodup.idxOf_getElem i hi,
    Nat.zero_add]

/-- The number of a block, from its routine. -/
theorem entrance?_eq (label : String) : CallGraph.entrance? (entrances graphs) label =
    (Routine.entrance? routines label).map fun place =>
      ⟨routines.idxOf place.1, place.2⟩ := by
  have hentrances : (entrances graphs).filter (·.1 == label) =
      (routines.flatMap (Routine.labelled label)).map fun place =>
        (label, ⟨routines.idxOf place.1, place.2⟩) := by
    unfold entrances blocks
    rw [h.zipIdx_eq, List.flatMap_map, List.filterMap_flatMap, List.filter_flatMap,
      List.map_flatMap]
    -- within a routine, block after block
    refine congrArg (List.flatMap · _) (funext fun r => ?_)
    unfold Routine.labelled
    dsimp only
    induction r.1.entries with
    | nil => rfl
    | cons entry entries ih =>
      rw [List.map_cons, List.filterMap_cons, List.filter_cons]
      cases hlabel : entry.2.block.label? with
      | none => simpa [hlabel] using ih
      | some other =>
        by_cases heq : other = label
        · subst heq
          simpa [hlabel] using ih
        · simpa [hlabel, heq] using ih
  unfold CallGraph.entrance? Routine.entrance?
  rw [hentrances, List.getLast?_map, Option.map_map]
  rfl

/-- A block calls the routines with the labels that it calls. -/
theorem callees_workload (hroutine : routine ∈ routines) (id : BlockId) (estimate : Nat) :
    ((ofGraphs graphs).workload estimate graphs).callees ⟨routines.idxOf routine, id⟩ =
      (Routine.callees routines routine id).map routines.idxOf := by
  have hgraph := h.getElem?_idxOf hroutine
  unfold Routine.callees
  cases hblock : routine.1.block? id with
  -- No block, no calls: an edge would start at a block of the routine.
  | none =>
    refine List.eq_nil_iff_forall_not_mem.2 fun callee hcallee => ?_
    obtain ⟨edge, hedge, hcaller, _⟩ := CallGraph.mem_callees_workload.1 hcallee
    obtain ⟨graph, hgraph', hlt⟩ := (CallGraph.isBlock_of_mem_edges hedge).1
    rw [hcaller] at hgraph' hlt
    obtain rfl := Option.some.inj (hgraph.symm.trans hgraph')
    rw [← Graph.isSome_block?, hblock] at hlt
    cases hlt
  | some block =>
    show ((ofGraphs graphs).callsFrom _).map _ = _
    rw [CallGraph.callsFrom_ofGraphs hgraph hblock, List.map_filterMap, List.map_filterMap]
    simp only [h.entrance?_eq, Option.map_map]
    rfl

/-- A routine is called if it is one of the callees of a block. -/
theorem isCalled_iff (routine : Routine) : Routine.IsCalled routines routine ↔
    ∃ edge ∈ (ofGraphs graphs).edges, edge.callee.routine = routines.idxOf routine := by
  constructor
  · rintro ⟨caller, hcaller, id, hcallee⟩
    -- The caller of the edge has the callee among those of its block.
    have hmem := h.callees_workload hcaller id 0 ▸ List.mem_map_of_mem hcallee
    obtain ⟨edge, hedge, _, heq⟩ := CallGraph.mem_callees_workload.1 hmem
    exact ⟨edge, hedge, heq⟩
  · rintro ⟨edge, hedge, heq⟩
    obtain ⟨_, hgraph, _⟩ := (CallGraph.isBlock_of_mem_edges hedge).1
    obtain ⟨caller, hcaller, hidx⟩ := h.exists_routine (List.getElem?_eq_some_iff.mp hgraph).1
    have hmem : routines.idxOf routine ∈
        ((ofGraphs graphs).workload 0 graphs).callees edge.caller :=
      CallGraph.mem_callees_workload.2 ⟨edge, hedge, rfl, heq⟩
    obtain ⟨⟨number, id⟩, _⟩ := edge
    obtain rfl : routines.idxOf caller = number := hidx
    rw [h.callees_workload hcaller] at hmem
    obtain ⟨callee, hcallee, hidx⟩ := List.mem_map.1 hmem
    exact ⟨caller, hcaller, id,
      (List.idxOf_inj (Routine.mem_of_mem_callees hcallee)).1 hidx ▸ hcallee⟩

open Classical in
/-- The routines that are never called, in the order of the program. -/
theorem roots_eq : (ofGraphs graphs).roots graphs.length =
    (routines.filter fun r => ¬ Routine.IsCalled routines r).map routines.idxOf := by
  unfold CallGraph.roots
  rw [← h.map_idxOf, List.filter_map]
  refine congrArg (List.map _) (List.filter_congr fun r hr => ?_)
  rw [Bool.eq_iff_iff, decide_eq_true_iff, h.isCalled_iff]
  simp

end One

/-! ## Two arrangements -/

/-- The number of a routine in another arrangement, from its number in the first. -/
def renumber (routines routines' : List Routine) (number : Nat) : Nat :=
  match routines[number]? with
  | some routine => routines'.idxOf routine
  | none => number

theorem renumber_idxOf (hroutine : routine ∈ routines) :
    renumber routines routines' (routines.idxOf routine) = routines'.idxOf routine := by
  unfold renumber
  rw [List.getElem?_idxOf hroutine]

/-- The same routines, with the same entrances, in another order. -/
structure Same (routines routines' : List Routine) : Prop where
  perm : routines.Perm routines'
  entrances : ∀ label, Routine.entrance? routines' label = Routine.entrance? routines label

theorem Same.callees_eq (h : Same routines routines') (routine : Routine) (id : BlockId) :
    Routine.callees routines' routine id = Routine.callees routines routine id := by
  unfold Routine.callees
  simp only [h.entrances]

theorem Same.isCalled_iff (h : Same routines routines') (routine : Routine) :
    Routine.IsCalled routines' routine ↔ Routine.IsCalled routines routine := by
  unfold Routine.IsCalled
  simp only [h.callees_eq, h.perm.mem_iff]

section Two

variable (h : Arranged graphs routines) (h' : Arranged graphs' routines')
  (hsame : Same routines routines')
include h h' hsame

/-- The estimates of both arrangements read the same, under different numbers. -/
theorem renamed (estimate : Nat) : ((ofGraphs graphs).workload estimate graphs).Renamed
    ((ofGraphs graphs').workload estimate graphs') graphs.length (renumber routines routines') where
  injective i hi j hj heq := by
    obtain ⟨r, hr, rfl⟩ := h.exists_routine hi
    obtain ⟨s, hs, rfl⟩ := h.exists_routine hj
    rw [renumber_idxOf hr, renumber_idxOf hs] at heq
    rw [(List.idxOf_inj (hsame.perm.mem_iff.1 hr)).1 heq]
  blocks i hi := by
    obtain ⟨r, hr, rfl⟩ := h.exists_routine hi
    rw [renumber_idxOf hr, CallGraph.blocks_workload (h.getElem?_idxOf hr),
      CallGraph.blocks_workload (h'.getElem?_idxOf (hsame.perm.mem_iff.1 hr))]
  weight i hi id := by
    obtain ⟨r, hr, rfl⟩ := h.exists_routine hi
    rw [renumber_idxOf hr]
    show weightOf estimate graphs' _ = weightOf estimate graphs _
    unfold weightOf
    simp only [h.getElem?_idxOf hr, h'.getElem?_idxOf (hsame.perm.mem_iff.1 hr)]
  -- Calls are told by labels, so the order of the units does not enter here.
  callees i hi id := by
    obtain ⟨r, hr, rfl⟩ := h.exists_routine hi
    rw [renumber_idxOf hr, h.callees_workload hr, h'.callees_workload (hsame.perm.mem_iff.1 hr),
      hsame.callees_eq, List.map_map]
    exact List.map_congr_left fun callee hcallee =>
      (renumber_idxOf (Routine.mem_of_mem_callees hcallee)).symm
  closed i hi id callee hcallee := by
    obtain ⟨r, hr, rfl⟩ := h.exists_routine hi
    rw [h.callees_workload hr] at hcallee
    obtain ⟨s, hs, rfl⟩ := List.mem_map.1 hcallee
    rw [h.length_eq]
    exact List.idxOf_lt_length_of_mem (Routine.mem_of_mem_callees hs)

/-- The counts before the estimate are the same, whatever the order of the routines. -/
theorem agree_countsOf : Workload.Agree graphs.length (renumber routines routines')
    (CallGraph.countsOf graphs) (CallGraph.countsOf graphs') := by
  intro i hi id
  obtain ⟨r, hr, rfl⟩ := h.exists_routine hi
  unfold CallGraph.countsOf
  simp only [renumber_idxOf hr, h.getElem?_idxOf hr,
    h'.getElem?_idxOf (hsame.perm.mem_iff.1 hr)]

open Classical in
/-- The roots are the same routines, in another order. -/
theorem mem_roots_iff (root : Nat) : root ∈ (ofGraphs graphs').roots graphs'.length ↔
    root ∈ ((ofGraphs graphs).roots graphs.length).map (renumber routines routines') := by
  rw [h.roots_eq, h'.roots_eq, List.map_map]
  simp only [List.mem_map, List.mem_filter, hsame.isCalled_iff, hsame.perm.mem_iff,
    Function.comp_apply]
  refine exists_congr fun r => and_congr_right fun hr => ?_
  rw [renumber_idxOf (hsame.perm.mem_iff.2 hr.1)]

/-- The visits of all roots agree if no chain of calls is cut off, or if the roots keep their
order. -/
theorem agree_visitAll (estimate : Nat) {depth : Nat}
    (hcase : (∀ root ∈ (ofGraphs graphs).roots graphs.length, ∀ blocks last,
        (ofGraphs graphs).Chain root blocks last → blocks.length ≤ depth) ∨
      (ofGraphs graphs').roots graphs'.length =
        ((ofGraphs graphs).roots graphs.length).map (renumber routines routines')) :
    Workload.Agree graphs.length (renumber routines routines')
      (((ofGraphs graphs).workload estimate graphs).visitAll depth
        ((ofGraphs graphs).roots graphs.length) (CallGraph.countsOf graphs))
      (((ofGraphs graphs').workload estimate graphs').visitAll depth
        ((ofGraphs graphs').roots graphs'.length) (CallGraph.countsOf graphs')) := by
  have hrenamed := h.renamed h' hsame estimate
  have hcounts := h.agree_countsOf h' hsame
  have hlt : ∀ root ∈ (ofGraphs graphs).roots graphs.length, root < graphs.length :=
    fun root hroot => List.mem_range.1 (List.mem_filter.1 hroot).1
  -- With no chain cut off the order of the roots does not count; otherwise it is the same.
  rcases hcase with hshort | hroots
  · refine hrenamed.agree_visitAll_of_mem_iff hlt (fun root hroot blocks last hchain => ?_)
      (h.mem_roots_iff h' hsame) hcounts
    exact hshort root hroot blocks last (CallGraph.chain_workload.1 hchain)
  · rw [hroots]
    exact hrenamed.agree_visitAll hlt hcounts depth

end Two

end Arranged

end RamOverlay
