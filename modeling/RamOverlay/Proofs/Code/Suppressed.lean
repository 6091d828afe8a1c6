import Mathlib.Data.List.Basic
import RamOverlay.Flow.LocalCall
import RamOverlay.Proofs.Code.Linked

/-!
# Suppressing the calls inside a routine

The correction goes over the blocks one after the other. It changes each block on its own
(`value_correctLocalCalls`), and cannot fail if no call is a forced one.
-/

namespace RamOverlay.Graph

variable {graph : Graph} {id : BlockId} {block : Block} {call : LocalCall}

theorem block?_modify (graph : Graph) (id other : BlockId) (block : Block) :
    (graph.modify id fun node => { node with block }).block? other =
      if id = other then (graph.block? other).map fun _ => block else graph.block? other := by
  unfold block? modify
  rw [Array.getElem?_modify]
  split
  · rw [Option.map_map, Option.map_map]
    rfl
  · rfl

theorem size_modify (graph : Graph) (id : BlockId) (f : Node → Node) :
    (graph.modify id f).size = graph.size :=
  Array.size_modify

theorem mem_entries {node : Node} : (id, node) ∈ graph.entries ↔ graph.nodes[id]? = some node := by
  unfold entries
  rw [List.mem_map]
  constructor
  · rintro ⟨⟨node', id'⟩, hmem, heq⟩
    obtain ⟨rfl, rfl⟩ := Prod.mk.inj heq
    rw [List.mk_mem_zipIdx_iff_getElem?, Array.getElem?_toList] at hmem
    exact hmem
  · intro hnode
    refine ⟨(node, id), ?_, rfl⟩
    rw [List.mk_mem_zipIdx_iff_getElem?, Array.getElem?_toList]
    exact hnode

theorem pairwise_entries (graph : Graph) :
    graph.entries.Pairwise fun entry entry' => entry.1 ≠ entry'.1 := by
  have hids : (graph.nodes.toList.zipIdx.map (·.2)).Pairwise (· ≠ ·) := by
    rw [List.zipIdx_map_snd]
    exact List.nodup_range'
  unfold entries
  rw [List.pairwise_map] at hids ⊢
  exact hids

/-- What becomes of a block whose call is suppressed. -/
def suppressedBlock (call : LocalCall) (block : Block) : Block :=
  let kept := block.successors.filter (· ≠ call.block + 1)
  { block.withTail { block.tail with callClass := .suppressed } with
    successors := if call.target ∈ kept then kept else kept ++ [call.target] }

/-- Any call that is not a forced one can be suppressed. -/
theorem suppressed_eq (call : LocalCall) (h : block.tail.callClass ≠ .forced) :
    suppressed call block = .ok (suppressedBlock call block) := by
  unfold suppressed suppressedBlock Instruction.suppressCall
  cases hclass : block.tail.callClass with
  | forced => exact absurd hclass h
  | natural => rfl
  | suppressed => rfl

/-- Calls of different blocks are suppressed independently of each other. -/
theorem suppressAll_ok {calls : List LocalCall} (hnodup : (calls.map (·.block)).Nodup)
    (hok : ∀ call ∈ calls, ∀ block, graph.block? call.block = some block →
      block.tail.callClass ≠ .forced) :
    ∃ graph', graph.suppressAll calls = .ok graph' ∧ graph'.size = graph.size ∧
      ∀ id, graph'.block? id = (graph.block? id).map fun block =>
        match calls.find? (·.block == id) with
        | some call => suppressedBlock call block
        | none => block := by
  induction calls generalizing graph with
  | nil => exact ⟨graph, rfl, rfl, fun id => Option.map_id_apply.symm⟩
  | cons call rest ih =>
    obtain ⟨hnotin, hrest⟩ := List.nodup_cons.mp hnodup
    have hnone : rest.find? (·.block == call.block) = none := by
      refine List.find?_eq_none.mpr fun other hother heq => hnotin ?_
      exact List.mem_map.mpr ⟨other, hother, by simpa using heq⟩
    rw [suppressAll]
    -- no later call is in the same block, so the induction leaves this one alone
    cases hblock : graph.block? call.block with
    | none =>
      obtain ⟨graph', heq, hsize, hblocks⟩ := ih hrest fun other hother =>
        hok other (List.mem_cons_of_mem call hother)
      refine ⟨graph', heq, hsize, fun id => ?_⟩
      rw [hblocks id]
      by_cases hid : call.block = id
      · rw [← hid, hblock, Option.map_none, Option.map_none]
      · rw [List.find?_cons_of_neg (by simpa using hid)]
    | some block =>
      have hnew := block?_modify graph call.block
      obtain ⟨graph', heq, hsize, hblocks⟩ := @ih
        (graph.modify call.block fun node => { node with block := suppressedBlock call block })
        hrest fun other hother block' hblock' => by
          have hne : call.block ≠ other.block := fun h =>
            hnotin (List.mem_map.mpr ⟨other, hother, h.symm⟩)
          rw [hnew, if_neg hne] at hblock'
          exact hok other (List.mem_cons_of_mem call hother) block' hblock'
      refine ⟨graph', ?_, hsize.trans (size_modify _ _ _), fun id => ?_⟩
      · dsimp only
        rw [suppressed_eq call (hok call List.mem_cons_self block hblock)]
        exact heq
      · rw [hblocks id, hnew]
        by_cases hid : call.block = id
        · subst hid
          rw [if_pos rfl, hblock, hnone, List.find?_cons_of_pos (by simp)]
          rfl
        · rw [if_neg hid, List.find?_cons_of_neg (by simpa using hid)]

/-! ## The calls of a graph -/

theorem containsLabel_of_blockDefining? {label : String}
    (h : graph.blockDefining? label = some id) :
    ∃ block, graph.block? id = some block ∧ block.containsLabel label = true := by
  obtain ⟨hlt, hcontains, _⟩ := Array.findIdx?_eq_some_iff_getElem.mp h
  refine ⟨graph.nodes[id].block, ?_, hcontains⟩
  rw [block?, Array.getElem?_eq_getElem hlt]
  rfl

/-- A call is local if the first block that has its label is in the component of the call. -/
theorem localCall?_eq_some {components : List Nat} :
    graph.localCall? components id block = some call ↔ block.tail.isCall = true ∧
      block.tail.destination.label? = some call.label ∧
        graph.blockDefining? call.label = some call.target ∧
          components[call.target]? = components[id]? ∧ call.block = id := by
  unfold localCall?
  cases hcall : block.tail.isCall with
  | false => simp
  | true =>
    cases hlabel : block.tail.destination.label? with
    | none => simp
    | some label =>
      -- the bind is opened with the label fixed, so that both look-ups stand for themselves
      have hdo : (do
          let target ← graph.blockDefining? label
          if components[target]? = components[id]? then some { block := id, target, label }
          else none : Option LocalCall) = some call ↔ label = call.label ∧
            graph.blockDefining? call.label = some call.target ∧
              components[call.target]? = components[id]? ∧ call.block = id := by
        constructor
        · intro h
          obtain ⟨target, htarget, h⟩ := Option.bind_eq_some_iff.mp h
          split at h
          next hsame =>
            cases h
            exact ⟨rfl, htarget, hsame, rfl⟩
          next => cases h
        · rintro ⟨rfl, htarget, hsame, rfl⟩
          rw [htarget]
          exact if_pos hsame
      simpa using hdo

theorem mem_localCalls : call ∈ graph.localCalls ↔ ∃ block,
    graph.block? call.block = some block ∧
      graph.localCall? graph.components call.block block = some call := by
  unfold localCalls
  rw [List.mem_filterMap]
  constructor
  · rintro ⟨⟨id, node⟩, hmem, hcall⟩
    obtain rfl : call.block = id := (localCall?_eq_some.1 hcall).2.2.2.2
    exact ⟨node.block, by rw [block?, mem_entries.1 hmem]; rfl, hcall⟩
  · rintro ⟨block, hblock, hcall⟩
    obtain ⟨node, hnode, rfl⟩ := Option.map_eq_some_iff.mp hblock
    exact ⟨(call.block, node), mem_entries.2 hnode, hcall⟩

/-- A block ends with one local call at most. -/
theorem nodup_localCalls (graph : Graph) : (graph.localCalls.map (·.block)).Nodup := by
  refine List.pairwise_map.mpr ?_
  refine (pairwise_entries graph).filterMap _ fun entry entry' hne call hcall call' hcall' => ?_
  rw [(localCall?_eq_some.1 hcall).2.2.2.2, (localCall?_eq_some.1 hcall').2.2.2.2]
  exact hne

theorem find?_localCalls (hblock : graph.block? id = some block) :
    graph.localCalls.find? (·.block == id) = graph.localCall? graph.components id block := by
  cases hfind : graph.localCalls.find? (·.block == id) with
  | none =>
    symm
    refine Option.eq_none_iff_forall_not_mem.mpr fun call hcall => ?_
    have hid := (localCall?_eq_some.1 hcall).2.2.2.2
    rw [← hid] at hblock hcall
    -- a local call of the block would be in the list, and so be found
    have hno := List.find?_eq_none.mp hfind call (mem_localCalls.2 ⟨block, hblock, hcall⟩)
    exact hno (beq_iff_eq.mpr hid)
  | some call =>
    obtain rfl : call.block = id := by simpa using List.find?_some hfind
    obtain ⟨block', hblock', hcall⟩ := mem_localCalls.1 (List.mem_of_find?_eq_some hfind)
    rw [← hcall, Option.some.inj (hblock.symm.trans hblock')]

/-- The correction changes each block on its own. -/
theorem value_correctLocalCalls (graph : Graph)
    (hforced : ∀ id block, graph.block? id = some block → block.tail.isCall = true →
      block.tail.callClass ≠ .forced) :
    ∃ graph', graph.correctLocalCalls.run.value = .ok graph' ∧ graph'.size = graph.size ∧
      ∀ id, graph'.block? id = (graph.block? id).map fun block =>
        match graph.localCall? graph.components id block with
        | some call => suppressedBlock call block
        | none => block := by
  -- no local call is a forced one, so each of them can be suppressed
  obtain ⟨graph', heq, hsize, hblocks⟩ := suppressAll_ok (nodup_localCalls graph)
    fun call hcall block hblock => by
      obtain ⟨block', hblock', hcall⟩ := mem_localCalls.1 hcall
      obtain rfl := Option.some.inj (hblock.symm.trans hblock')
      exact hforced call.block block hblock (localCall?_eq_some.1 hcall).1
  refine ⟨graph', heq, hsize, fun id => ?_⟩
  rw [hblocks id]
  cases hblock : graph.block? id with
  | none => rfl
  | some block => simp only [Option.map_some, find?_localCalls hblock]

end RamOverlay.Graph
