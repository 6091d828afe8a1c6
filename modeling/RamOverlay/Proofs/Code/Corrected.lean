import RamOverlay.Proofs.Code.Joined
import RamOverlay.Proofs.Code.RoutineEdges

/-!
# The graph with jumps for local calls

* **`Corrected`**: what the correction makes of a block of a unit. A call whose target is joined to
  it becomes a jump with one edge; other blocks stay.
* **`exists_corrected`**: the correction of a fresh unit comes to an end, and does this to each
  block.
* **`Graph.IsCorrected.joined`**: it joins no blocks that were not joined before.
* **`correctLocalCalls_settled`**: so nothing is left to correct.
-/

namespace RamOverlay

open Discovery

/-! ## Labels in blocks -/

/-- Labels do not depend on edges and call classes. -/
theorem Block.containsLabel_eq_of_plain {block block' : Block} (h : block.plain = block'.plain)
    (label : String) : block.containsLabel label = block'.containsLabel label := by
  have hany : ∀ block : Block,
      block.containsLabel label = block.plain.any (·.definesLabel label) := by
    intro block
    rw [Block.plain, List.any_map]
    rfl
  rw [hany, hany, h]

/-- The block at the place defines the label. -/
def Graph.Holds (graph : Graph) (label : String) (id : BlockId) : Prop :=
  ∃ block, graph.block? id = some block ∧ block.containsLabel label = true

/-! ## The edges of a linked graph -/

section Linked

variable {unit : SourceUnit} {routines : RoutineLabels} {cut : Block} {id : BlockId}

theorem size_linkedGraph (unit : SourceUnit) (routines : RoutineLabels) :
    (linkedGraph unit routines).size = (cutBlocks unit routines).length := by
  simp [linkedGraph, Graph.ofBlocks, Graph.size]

theorem block_of_blockAt? {blocks : List Block} {a : Nat} (h : blockAt? blocks a = some id) :
    ∃ block, blocks[id]? = some block ∧ block.address = a := by
  obtain ⟨hlt, hfound, _⟩ := List.findIdx?_eq_some_iff_getElem.mp h
  exact ⟨_, List.getElem?_eq_getElem hlt, by simpa using hfound⟩

/-- A block is linked to the next one, or to the one at the label of its tail. -/
theorem mem_successors_linkedBlock {blocks : List Block} {next : BlockId}
    (h : next ∈ (linkedBlock unit routines blocks id cut).successors) :
    next ∈ fallthrough blocks.length id cut.tail ∨ cut.tail.isCall = false ∧ ∃ label a,
      cut.tail.destination.label? = some label ∧ label ∉ routines ∧
        unit.addressOf? label = some a ∧ blockAt? blocks a = some next := by
  have hlinked := linked_linkedBlock unit routines blocks id cut
  -- only a jump with a target has an edge besides the one to the next block
  generalize linkedBlock unit routines blocks id cut = block at hlinked h
  cases hlinked with
  | plain => exact .inl h
  | forced => exact .inl h
  | lost => exact .inl h
  | @jump label a target hcall hlabel hlocal haddress htarget =>
    change next ∈ addSuccessor _ target at h
    unfold addSuccessor at h
    split at h
    · exact .inl h
    · rcases List.mem_append.mp h with h | h
      · exact .inl h
      · obtain rfl := List.mem_singleton.mp h
        exact .inr ⟨hcall, label, a, hlabel, hlocal, haddress, htarget⟩

/-- Whatever the tail is, the edge to the next block is kept if there is one. -/
theorem mem_successors_of_fallthrough {blocks : List Block} {next : BlockId}
    (h : next ∈ fallthrough blocks.length id cut.tail) :
    next ∈ (linkedBlock unit routines blocks id cut).successors := by
  have hlinked := linked_linkedBlock unit routines blocks id cut
  generalize linkedBlock unit routines blocks id cut = block at hlinked ⊢
  cases hlinked with
  | plain => exact h
  | forced => exact h
  | lost => exact h
  -- only a jump adds to the edge behind, and it does not replace it
  | jump =>
    show next ∈ addSuccessor _ _
    unfold addSuccessor
    split
    · exact h
    · exact List.mem_append_left _ h

/-- A jump to a label of the unit that is none of a routine has an edge to the block that begins
there. -/
theorem mem_successors_of_jump {blocks : List Block} {label : String} {a : Nat} {next : BlockId}
    (hnatural : cut.tail.callClass = .natural) (hbranch : cut.tail.isBranch = true)
    (hlabel : cut.tail.destination.label? = some label) (hlocal : label ∉ routines)
    (haddress : unit.addressOf? label = some a) (hnext : blockAt? blocks a = some next) :
    next ∈ (linkedBlock unit routines blocks id cut).successors := by
  have hlinked := linked_linkedBlock unit routines blocks id cut
  generalize linkedBlock unit routines blocks id cut = block at hlinked ⊢
  -- the first three cases are excluded by what is known of the tail
  cases hlinked with
  | plain hcall =>
    rw [Instruction.isBranch_of_isCall (hcall label hlabel) hnatural] at hbranch
    cases hbranch
  | forced _ hlabel' hroutine =>
    obtain rfl := Option.some.inj (hlabel.symm.trans hlabel')
    exact absurd hroutine hlocal
  | lost _ hlabel' _ hlost =>
    obtain rfl := Option.some.inj (hlabel.symm.trans hlabel')
    rw [hlost a haddress] at hnext
    cases hnext
  | jump _ hlabel' _ haddress' htarget =>
    obtain rfl := Option.some.inj (hlabel.symm.trans hlabel')
    obtain rfl := Option.some.inj (haddress.symm.trans haddress')
    obtain rfl := Option.some.inj (hnext.symm.trans htarget)
    show next ∈ addSuccessor _ _
    unfold addSuccessor
    split
    next hmem => exact hmem
    next => exact List.mem_append_right _ (List.mem_singleton_self _)

/-- Falling through goes to the next block, if there is one and the tail does not always branch. -/
theorem eq_of_mem_fallthrough {count : Nat} {tail : Instruction} {next : BlockId}
    (h : next ∈ fallthrough count id tail) :
    next = id + 1 ∧ id + 1 < count ∧ tail.isUnconditional = false := by
  unfold fallthrough at h
  split at h
  next hcond =>
    obtain ⟨hfalls, hlt⟩ := Bool.and_eq_true_iff.mp hcond
    exact ⟨List.mem_singleton.mp h, of_decide_eq_true hlt, by simpa using hfalls⟩
  next => cases h

theorem successors_linkedGraph (hcut : (cutBlocks unit routines)[id]? = some cut) :
    (linkedGraph unit routines).successors id =
      (linkedBlock unit routines (cutBlocks unit routines) id cut).successors :=
  Graph.successors_of_block? (block?_linkedGraph.2 ⟨cut, hcut, rfl⟩)

/-- All edges of a linked graph lead to blocks of it. -/
theorem lt_size_of_mem_successors_linkedGraph {next : BlockId}
    (h : next ∈ (linkedGraph unit routines).successors id) :
    next < (linkedGraph unit routines).size := by
  rw [size_linkedGraph]
  have hid := Graph.lt_size_of_mem_successors h
  rw [size_linkedGraph] at hid
  rw [successors_linkedGraph (List.getElem?_eq_getElem hid)] at h
  rcases mem_successors_linkedBlock h with h | ⟨_, _, a, _, _, _, htarget⟩
  · obtain ⟨rfl, hlt, _⟩ := eq_of_mem_fallthrough h
    exact hlt
  · obtain ⟨block, hblock, _⟩ := block_of_blockAt? htarget
    exact (List.getElem?_eq_some_iff.mp hblock).1

/-- Linking leaves the labels where they are. -/
theorem holds_linkedGraph {label : String} :
    (linkedGraph unit routines).Holds label id ↔
      ∃ cut, (cutBlocks unit routines)[id]? = some cut ∧ cut.containsLabel label = true := by
  have hsame := fun cut => Block.containsLabel_eq_of_plain
    (plain_linkedBlock unit routines (cutBlocks unit routines) id cut) label
  constructor
  · rintro ⟨block, hblock, hcontains⟩
    obtain ⟨cut, hcut, rfl⟩ := block?_linkedGraph.1 hblock
    exact ⟨cut, hcut, hsame cut ▸ hcontains⟩
  · rintro ⟨cut, hcut, hcontains⟩
    exact ⟨_, block?_linkedGraph.2 ⟨cut, hcut, rfl⟩, (hsame cut).trans hcontains⟩

/-- A label that is defined once lies in one block. -/
theorem eq_of_holds_linkedGraph (hfresh : unit.Fresh) (hunique : unit.UniqueLabels) {label : String}
    {id' : BlockId} (h : (linkedGraph unit routines).Holds label id)
    (h' : (linkedGraph unit routines).Holds label id') : id = id' := by
  obtain ⟨cut, hcut, hcontains⟩ := holds_linkedGraph.1 h
  obtain ⟨cut', hcut', hcontains'⟩ := holds_linkedGraph.1 h'
  obtain ⟨insn, hinsn, hdefines⟩ := List.any_eq_true.mp hcontains
  obtain ⟨insn', hinsn', hdefines'⟩ := List.any_eq_true.mp hcontains'
  obtain ⟨i, hi⟩ := List.mem_iff_getElem?.mp hinsn
  obtain ⟨i', hi'⟩ := List.mem_iff_getElem?.mp hinsn'
  have hget := (cutOut_cutBlocks hfresh (List.mem_of_getElem? hcut)).getElem?_eq hi
  have hget' := (cutOut_cutBlocks hfresh (List.mem_of_getElem? hcut')).getElem?_eq hi'
  -- the entries that define it are one, and an entry is in one block
  have hsame := hunique.eq_of_definesLabel hget hget' hdefines hdefines'
  refine eq_of_mem_addresses hfresh hcut hcut' (a := cut.address + i) ?_ ?_
  · rw [← hfresh.address _ insn hget]
    exact List.mem_map_of_mem hinsn
  · rw [hsame, ← hfresh.address _ insn' hget']
    exact List.mem_map_of_mem hinsn'

end Linked

/-! ## Corrected blocks -/

theorem Block.withTail_withSuccessors (block : Block) (successors : List BlockId)
    (tail : Instruction) :
    ({ block with successors } : Block).withTail tail =
      { block.withTail tail with successors } := by
  have htail : ({ block with successors } : Block).tailIndex = block.tailIndex := rfl
  unfold withTail
  rw [htail]
  cases block.tailIndex <;> rfl

/-- The block whose call is a jump to the block `target`. -/
def Block.jumpTo (block : Block) (target : BlockId) : Block :=
  { block.withTail { block.tail with callClass := .suppressed } with successors := [target] }

theorem Block.tail_jumpTo (block : Block) (target : BlockId) :
    (block.jumpTo target).tail = { block.tail with callClass := .suppressed } :=
  Block.tail_withTail (fun _ => rfl) rfl

theorem Block.plain_jumpTo (block : Block) (target : BlockId) :
    (block.jumpTo target).plain = block.plain :=
  Block.plain_withTail rfl

/-- What the correction makes of a block of a unit. -/
inductive Corrected (unit : SourceUnit) (routines : RoutineLabels) (id : BlockId) (cut : Block) :
    Block → Prop where
  | jump {label : String} {target : BlockId} (hcall : cut.tail.isCall = true)
      (hlabel : cut.tail.destination.label? = some label)
      (htarget : (linkedGraph unit routines).blockDefining? label = some target)
      (hjoined : (linkedGraph unit routines).Joined id target) :
      Corrected unit routines id cut (cut.jumpTo target)
  | kept (hno : cut.tail.isCall = true → ∀ label target,
        cut.tail.destination.label? = some label →
          (linkedGraph unit routines).blockDefining? label = some target →
            ¬ (linkedGraph unit routines).Joined id target) :
      Corrected unit routines id cut
        (linkedBlock unit routines (cutBlocks unit routines) id cut)

/-- The graph is the corrected graph of the unit. -/
structure Graph.IsCorrected (graph : Graph) (unit : SourceUnit) (routines : RoutineLabels) :
    Prop where
  size : graph.size = (cutBlocks unit routines).length
  corrected : ∀ (id : BlockId) (cut : Block), (cutBlocks unit routines)[id]? = some cut →
    ∃ block, graph.block? id = some block ∧ Corrected unit routines id cut block

section Corrected

variable {unit : SourceUnit} {routines : RoutineLabels} {cut block : Block} {id : BlockId}
  {graph : Graph}

theorem Corrected.plain_eq (h : Corrected unit routines id cut block) :
    block.plain = cut.plain := by
  cases h with
  | jump => exact cut.plain_jumpTo _
  | kept => exact plain_linkedBlock unit routines _ id cut

/-- A suppressed call has one edge, to its target. -/
theorem suppressedBlock_linkedBlock {call : LocalCall} (hcall : cut.tail.isCall = true)
    (hid : call.block = id) :
    Graph.suppressedBlock call (linkedBlock unit routines (cutBlocks unit routines) id cut) =
      cut.jumpTo call.target := by
  -- the call has the edge to the next block only, and that one is dropped
  have hkept : (fallthrough (cutBlocks unit routines).length id cut.tail).filter
      (· ≠ call.block + 1) = [] := by
    refine List.filter_eq_nil_iff.mpr fun next hnext => ?_
    obtain ⟨rfl, _⟩ := eq_of_mem_fallthrough hnext
    simp [hid]
  rw [linkedBlock_of_isCall unit routines _ id hcall]
  unfold Graph.suppressedBlock
  dsimp only
  rw [hkept, if_neg List.not_mem_nil, List.nil_append, Block.withTail_withSuccessors]
  rfl

theorem lt_size_of_blockDefining? {label : String} {target : BlockId}
    (h : graph.blockDefining? label = some target) : target < graph.size :=
  (Array.findIdx?_eq_some_iff_getElem.mp h).1

/-- What the correction makes of a linked block, with the connection between a call and its target
told by the blocks that are joined. -/
theorem corrected_of_localCall? (hfresh : unit.Fresh)
    (hcut : (cutBlocks unit routines)[id]? = some cut) :
    Corrected unit routines id cut <|
      match (linkedGraph unit routines).localCall? (linkedGraph unit routines).components id
          (linkedBlock unit routines (cutBlocks unit routines) id cut) with
      | some call =>
        Graph.suppressedBlock call (linkedBlock unit routines (cutBlocks unit routines) id cut)
      | none => linkedBlock unit routines (cutBlocks unit routines) id cut := by
  have hnatural := natural_tail hfresh (List.mem_of_getElem? hcut)
  have hid : id < (linkedGraph unit routines).size := by
    rw [size_linkedGraph]
    exact (List.getElem?_eq_some_iff.mp hcut).1
  have hjoined : ∀ {label : String} {target : BlockId},
      (linkedGraph unit routines).blockDefining? label = some target →
        ((linkedGraph unit routines).components[target]? =
          (linkedGraph unit routines).components[id]? ↔
            (linkedGraph unit routines).Joined id target) := fun htarget =>
    eq_comm.trans (Graph.components_eq_iff_joined
      (fun _ _ => lt_size_of_mem_successors_linkedGraph) hid (lt_size_of_blockDefining? htarget))
  split
  next call hcall =>
    obtain ⟨hiscall, hlabel, htarget, hsame, hblock⟩ := Graph.localCall?_eq_some.1 hcall
    obtain ⟨htail, hiscall⟩ := isCall_tail_linkedBlock _ id hnatural hiscall
    rw [htail] at hlabel
    rw [suppressedBlock_linkedBlock hiscall hblock]
    exact .jump hiscall hlabel htarget ((hjoined htarget).1 hsame)
  next hnone =>
    -- a call of a joined block would have been found
    refine .kept fun hiscall label target hlabel htarget hconnected => ?_
    have htail : (linkedBlock unit routines (cutBlocks unit routines) id cut).tail = cut.tail := by
      rw [linkedBlock_of_isCall unit routines _ id hiscall]
      rfl
    have hsome : (linkedGraph unit routines).localCall? (linkedGraph unit routines).components id
        (linkedBlock unit routines (cutBlocks unit routines) id cut) = some ⟨id, target, label⟩ :=
      Graph.localCall?_eq_some.2
        ⟨htail ▸ hiscall, htail ▸ hlabel, htarget, (hjoined htarget).2 hconnected, rfl⟩
    rw [hnone] at hsome
    cases hsome

/-- The correction of a fresh unit comes to an end. -/
theorem exists_corrected (hfresh : unit.Fresh) (routines : RoutineLabels) :
    ∃ graph, (linkedGraph unit routines).correctLocalCalls.run.value = .ok graph ∧
      graph.IsCorrected unit routines := by
  obtain ⟨graph, heq, hsize, hblocks⟩ := value_correctLocalCalls_linkedGraph hfresh routines
  refine ⟨graph, heq, hsize.trans (size_linkedGraph unit routines), fun id cut hcut => ?_⟩
  rw [hblocks id, block?_linkedGraph.2 ⟨cut, hcut, rfl⟩]
  exact ⟨_, rfl, corrected_of_localCall? hfresh hcut⟩

namespace Graph.IsCorrected

/-- Each block of the corrected graph is one of the unit. -/
theorem exists_cut (h : graph.IsCorrected unit routines) (hblock : graph.block? id = some block) :
    ∃ cut, (cutBlocks unit routines)[id]? = some cut ∧ Corrected unit routines id cut block := by
  have hlt : id < graph.size := isSome_block?.1 (by rw [hblock]; rfl)
  rw [h.size] at hlt
  obtain ⟨block', hblock', hcorrected⟩ := h.corrected id _ (List.getElem?_eq_getElem hlt)
  obtain rfl := Option.some.inj (hblock.symm.trans hblock')
  exact ⟨_, List.getElem?_eq_getElem hlt, hcorrected⟩

theorem follows (h : graph.IsCorrected unit routines) : graph.Follows unit routines := by
  intro id cut hcut
  obtain ⟨block, hblock, hcorrected⟩ := h.corrected id cut hcut
  exact ⟨block, hblock, hcorrected.plain_eq⟩

/-- Correcting the calls leaves the labels where they are. -/
theorem holds_iff (h : graph.IsCorrected unit routines) {label : String} :
    graph.Holds label id ↔ (linkedGraph unit routines).Holds label id := by
  rw [holds_linkedGraph]
  constructor
  · rintro ⟨block, hblock, hcontains⟩
    obtain ⟨cut, hcut, hcorrected⟩ := h.exists_cut hblock
    rw [Block.containsLabel_eq_of_plain hcorrected.plain_eq] at hcontains
    exact ⟨cut, hcut, hcontains⟩
  · rintro ⟨cut, hcut, hcontains⟩
    obtain ⟨block, hblock, hcorrected⟩ := h.corrected id cut hcut
    rw [← Block.containsLabel_eq_of_plain hcorrected.plain_eq] at hcontains
    exact ⟨block, hblock, hcontains⟩

/-- An edge of the corrected graph is one of the linked graph, or goes from a call to its target,
which are joined there. -/
theorem edge_cases (h : graph.IsCorrected unit routines) {next : BlockId}
    (hedge : next ∈ graph.successors id) : next ∈ (linkedGraph unit routines).successors id ∨
      next < (linkedGraph unit routines).size ∧ (linkedGraph unit routines).Joined id next := by
  obtain ⟨block, hblock⟩ :=
    Option.isSome_iff_exists.mp (isSome_block?.2 (lt_size_of_mem_successors hedge))
  rw [successors_of_block? hblock] at hedge
  obtain ⟨cut, hcut, hcorrected⟩ := h.exists_cut hblock
  cases hcorrected with
  | jump _ _ htarget hjoined =>
    obtain rfl := List.mem_singleton.mp hedge
    exact .inr ⟨lt_size_of_blockDefining? htarget, hjoined⟩
  | kept => exact .inl ((successors_linkedGraph hcut).symm ▸ hedge)

theorem lt_size (h : graph.IsCorrected unit routines) (id : BlockId) :
    ∀ next ∈ graph.successors id, next < graph.size := by
  intro next hedge
  rw [h.size, ← size_linkedGraph]
  rcases h.edge_cases hedge with hkept | ⟨hlt, _⟩
  · exact lt_size_of_mem_successors_linkedGraph hkept
  · exact hlt

/-- The correction joins nothing new. -/
theorem joined (h : graph.IsCorrected unit routines) {u v : BlockId} (huv : graph.Joined u v) :
    (linkedGraph unit routines).Joined u v := by
  induction huv with
  | refl u => exact .refl u
  | symm u v _ ih => exact .symm u v ih
  | trans u v w _ _ ih ih' => exact .trans u v w ih ih'
  | rel u v hedge =>
    rcases h.edge_cases hedge with hkept | ⟨_, hjoined⟩
    · exact joined_of_mem_successors hkept
    · exact hjoined

end Graph.IsCorrected

/-! ## Nothing is left to correct -/

theorem holds_of_blockDefining? {label : String} {target : BlockId}
    (h : graph.blockDefining? label = some target) : graph.Holds label target :=
  Graph.containsLabel_of_blockDefining? h

/-- A label that is in some block is found, in this block or in an earlier one. -/
theorem exists_blockDefining? {label : String} (h : graph.Holds label id) :
    ∃ target, graph.blockDefining? label = some target := by
  obtain ⟨block, hblock, hcontains⟩ := h
  obtain ⟨node, hnode, rfl⟩ := Option.map_eq_some_iff.mp hblock
  refine Option.isSome_iff_exists.mp (Array.findIdx?_isSome.trans ?_)
  rw [Array.any_eq_true]
  obtain ⟨hlt, rfl⟩ := Array.getElem?_eq_some_iff.mp hnode
  exact ⟨id, hlt, hcontains⟩

/-- In the graph no call goes to a block that is joined to its own, and each suppressed call goes to
the block of its label and nowhere else. -/
structure Graph.CallsSettled (graph : Graph) : Prop where
  fixed : graph.correctLocalCalls = pure graph
  calls : ∀ (id target : BlockId) (block : Block) (label : String), graph.block? id = some block →
    block.tail.isCall = true → block.tail.destination.label? = some label →
      graph.Holds label target → ¬ graph.Joined id target
  jumps : ∀ (id : BlockId) (block : Block), graph.block? id = some block →
    block.tail.callClass = .suppressed → ∃ label target,
      block.tail.destination.label? = some label ∧
        (∀ other, graph.Holds label other ↔ other = target) ∧ block.successors = [target]

/-- Without calls inside a routine there is nothing to correct. -/
theorem Graph.correctLocalCalls_eq_pure (h : graph.localCalls = []) :
    graph.correctLocalCalls = pure graph := by
  unfold correctLocalCalls
  rw [h]
  rfl

/-- A call that is left goes to no block that its own is joined to: it would have become a jump. -/
theorem Graph.IsCorrected.not_joined_of_call (h : graph.IsCorrected unit routines)
    (hfresh : unit.Fresh) (hunique : unit.UniqueLabels) {target : BlockId} {label : String}
    (hblock : graph.block? id = some block) (hcall : block.tail.isCall = true)
    (hlabel : block.tail.destination.label? = some label) (hholds : graph.Holds label target) :
    ¬ graph.Joined id target := by
  intro hjoined
  obtain ⟨cut, hcut, hcorrected⟩ := h.exists_cut hblock
  cases hcorrected with
  | jump =>
    -- a jump is no call any more
    rw [cut.tail_jumpTo] at hcall
    simp [Instruction.isCall] at hcall
  | kept hno =>
    have hnatural := natural_tail hfresh (List.mem_of_getElem? hcut)
    obtain ⟨htail, hcall⟩ := isCall_tail_linkedBlock _ id hnatural hcall
    rw [htail] at hlabel
    rw [h.holds_iff] at hholds
    obtain ⟨first, hfirst⟩ := exists_blockDefining? hholds
    -- the label has one block, so the call would have been found to be local
    obtain rfl :=
      eq_of_holds_linkedGraph hfresh hunique (holds_of_blockDefining? hfirst) hholds
    exact hno hcall label first hlabel hfirst (h.joined hjoined)

/-- Linking suppresses no call, so a suppressed one has become a jump. -/
theorem Graph.IsCorrected.jumps_of_suppressed (h : graph.IsCorrected unit routines)
    (hfresh : unit.Fresh) (hunique : unit.UniqueLabels) (hblock : graph.block? id = some block)
    (hclass : block.tail.callClass = .suppressed) :
    ∃ label target, block.tail.destination.label? = some label ∧
      (∀ other, graph.Holds label other ↔ other = target) ∧ block.successors = [target] := by
  obtain ⟨cut, hcut, hcorrected⟩ := h.exists_cut hblock
  cases hcorrected with
  | @jump label target hcall hlabel htarget _ =>
    refine ⟨label, target, ?_, fun other => ?_, rfl⟩
    · rw [cut.tail_jumpTo, Instruction.destination_suppressed hcall]
      exact hlabel
    · -- the label is defined once, so the target is the only block that has it
      have htarget := holds_of_blockDefining? htarget
      rw [h.holds_iff]
      constructor
      · exact fun hother => eq_of_holds_linkedGraph hfresh hunique hother htarget
      · rintro rfl
        exact htarget
  | kept =>
    have hnatural := natural_tail hfresh (List.mem_of_getElem? hcut)
    -- a linked tail is a natural or a forced call, and neither is suppressed
    rcases tail_linkedBlock _ id hnatural with heq | ⟨_, heq⟩
    · rw [heq, hnatural] at hclass
      cases hclass
    · rw [heq] at hclass
      cases hclass

/-- The corrected graph has no call left within a component, and its suppressed calls are its jumps.
-/
theorem Graph.IsCorrected.callsSettled (h : graph.IsCorrected unit routines) (hfresh : unit.Fresh)
    (hunique : unit.UniqueLabels) : graph.CallsSettled where
  fixed := by
    refine Graph.correctLocalCalls_eq_pure (List.eq_nil_iff_forall_not_mem.mpr fun call hmem => ?_)
    obtain ⟨block, hblock, hlocal⟩ := Graph.mem_localCalls.1 hmem
    obtain ⟨hcall, hlabel, htarget, hsame, _⟩ := Graph.localCall?_eq_some.1 hlocal
    refine h.not_joined_of_call hfresh hunique hblock hcall hlabel
      (holds_of_blockDefining? htarget) ?_
    exact Graph.joined_of_components_eq (Graph.isSome_block?.1 (by rw [hblock]; rfl))
      (lt_size_of_blockDefining? htarget) hsame.symm
  calls _ _ _ _ hblock hcall hlabel hholds :=
    h.not_joined_of_call hfresh hunique hblock hcall hlabel hholds
  jumps _ _ hblock hclass := h.jumps_of_suppressed hfresh hunique hblock hclass

/-- The routines are the parts of the corrected graph. -/
theorem value_routines (hfresh : unit.Fresh)
    (hgraph : (linkedGraph unit routines).correctLocalCalls.run.value = .ok graph) :
    (unit.routines routines).run.value = .ok (graph.partition routines).value := by
  unfold SourceUnit.routines
  rw [Attempt.value_bind_of_ok _ (value_graph hfresh routines),
    Attempt.value_bind_of_ok _ hgraph]
  rfl

end Corrected

/-- The routines of a unit are always found. The correction of local calls leaves nothing to
correct: no call is left to a block that is joined to its own, and each suppressed call goes to the
block of its label only. -/
theorem correctLocalCalls_settled {unit : SourceUnit} (hfresh : unit.Fresh)
    (hunique : unit.UniqueLabels) (routines : RoutineLabels) :
    ∃ graph corrected, (unit.graph routines).run.value = .ok graph ∧
      graph.correctLocalCalls.run.value = .ok corrected ∧
        (unit.routines routines).run.value = .ok (corrected.partition routines).value ∧
          corrected.CallsSettled := by
  obtain ⟨corrected, hvalue, hcorrected⟩ := exists_corrected hfresh routines
  exact ⟨linkedGraph unit routines, corrected, value_graph hfresh routines, hvalue,
    value_routines hfresh hvalue, hcorrected.callsSettled hfresh hunique⟩

/-- The call of `longJump` has become a jump to the block of its label. -/
theorem correctLocalCalls_settled_longJump :
    longJump.Fresh ∧ longJump.UniqueLabels ∧
      ∃ graph corrected block, (longJump.graph ["f"]).run.value = .ok graph ∧
        graph.correctLocalCalls.run.value = .ok corrected ∧
        (longJump.routines ["f"]).run.value = .ok (corrected.partition ["f"]).value ∧
        corrected.CallsSettled ∧
        corrected.block? 0 = some block ∧ block.tail.callClass = .suppressed ∧
        block.tail.destination = .label "g" ∧ block.successors = [2] ∧
        ∀ other, corrected.Holds "g" other ↔ other = 2 := by
  have hfresh : longJump.Fresh := (SourceUnit.fresh_parse _ _).markDelaySlots _
  have hunique : longJump.UniqueLabels := by decide
  obtain ⟨graph, corrected, hgraph, hcorrected, hroutines, hsettled⟩ :=
    correctLocalCalls_settled hfresh hunique ["f"]
  have hfirst : (match (longJump.graph ["f"]).run.value with
      | .ok graph =>
        match graph.correctLocalCalls.run.value with
        | .ok corrected => (corrected.block? 0).map fun block =>
            (block.tail.callClass, block.tail.destination, block.successors)
        | .error _ => none
      | .error _ => none) = some (.suppressed, .label "g", [2]) := by
    decide +kernel
  simp only [hgraph, hcorrected] at hfirst
  obtain ⟨block, hblock, heq⟩ := Option.map_eq_some_iff.1 hfirst
  simp only [Prod.mk.injEq] at heq
  obtain ⟨hclass, hlabel, hsuccessors⟩ := heq
  obtain ⟨label, target, hlabel', hholds, htarget⟩ := hsettled.jumps 0 block hblock hclass
  -- the label and the block are those that were found
  rw [hlabel] at hlabel'
  obtain rfl : "g" = label := Option.some.inj hlabel'
  obtain rfl : 2 = target := List.singleton_inj.1 (hsuccessors.symm.trans htarget)
  exact ⟨hfresh, hunique, graph, corrected, block, hgraph, hcorrected, hroutines, hsettled, hblock,
    hclass, hlabel, hsuccessors, hholds⟩

end RamOverlay
