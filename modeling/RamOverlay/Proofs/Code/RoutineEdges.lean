import RamOverlay.Flow.Routine
import RamOverlay.Proofs.Code.Components
import RamOverlay.Proofs.Code.Edges

/-!
# The edges of routines

* **`edges_correctLocalCalls`**: the edges of a unit graph are right when the calls inside routines
  are suppressed.
* **`Graph.Edges.restrict`**: edges stay right in a part that no edge leaves, and none leaves a
  component.
* **`routines_edges`**: so the edges of all routines of a unit are right.
-/

namespace RamOverlay

open Discovery

/-! ## Corrected calls -/

section Corrected

variable {unit : SourceUnit} {routines : RoutineLabels} {cut : Block} {id : BlockId}

/-- Linking changes a tail only to make a branch a call. -/
theorem tail_linkedBlock (blocks : List Block) (id : BlockId)
    (hnatural : cut.tail.callClass = .natural) :
    (linkedBlock unit routines blocks id cut).tail = cut.tail ∨
      cut.tail.isCall = false ∧
        (linkedBlock unit routines blocks id cut).tail =
          { cut.tail with callClass := .forced } := by
  have hlinked := linked_linkedBlock unit routines blocks id cut
  generalize linkedBlock unit routines blocks id cut = block at hlinked ⊢
  cases hlinked with
  | plain => exact .inl rfl
  | jump => exact .inl rfl
  | lost => exact .inl rfl
  | forced hcall =>
    refine .inr ⟨hcall, ?_⟩
    -- the branch stays one with its new class, so the tail is where it was
    show (cut.withTail _).tail = _
    exact Block.tail_withTail (fun h => (Instruction.isBranch_forced hnatural).trans h) rfl

/-- A tail that is a call after linking was one before, and is left as it was. -/
theorem isCall_tail_linkedBlock (blocks : List Block) (id : BlockId)
    (hnatural : cut.tail.callClass = .natural)
    (hcall : (linkedBlock unit routines blocks id cut).tail.isCall = true) :
    (linkedBlock unit routines blocks id cut).tail = cut.tail ∧ cut.tail.isCall = true := by
  rcases tail_linkedBlock blocks id hnatural with heq | ⟨hno, heq⟩
  · exact ⟨heq, heq ▸ hcall⟩
  · rw [heq] at hcall
    have hcall' : cut.tail.isCall = true := by
      unfold Instruction.isCall at hcall ⊢
      rw [hnatural]
      exact hcall
    rw [hno] at hcall'
    cases hcall'

/-- No call of a linked block is a forced one, so the correction cannot fail. -/
theorem value_correctLocalCalls_linkedGraph (hfresh : unit.Fresh) (routines : RoutineLabels) :
    ∃ graph, (linkedGraph unit routines).correctLocalCalls.run.value = .ok graph ∧
      graph.size = (linkedGraph unit routines).size ∧
      ∀ id, graph.block? id = ((linkedGraph unit routines).block? id).map fun block =>
        match (linkedGraph unit routines).localCall? (linkedGraph unit routines).components id
            block with
        | some call => Graph.suppressedBlock call block
        | none => block := by
  refine Graph.value_correctLocalCalls _ fun id block hblock hcall hforced => ?_
  obtain ⟨cut, hcut, rfl⟩ := block?_linkedGraph.1 hblock
  have hnatural := natural_tail hfresh (List.mem_of_getElem? hcut)
  rw [(isCall_tail_linkedBlock _ id hnatural hcall).1, hnatural] at hforced
  cases hforced

/-- Suppressing the calls inside routines cannot fail, and leaves the edges of the tails. -/
theorem edges_correctLocalCalls (hfresh : unit.Fresh) (hplain : unit.PlainSlots)
    (hunique : unit.UniqueLabels) (routines : RoutineLabels) :
    ∃ graph, (linkedGraph unit routines).correctLocalCalls.run.value = .ok graph ∧
      ∀ id block, graph.block? id = some block →
        ∃ next? taken?, graph.Edges unit routines block next? taken? := by
  obtain ⟨graph, heq, _, hblocks⟩ := value_correctLocalCalls_linkedGraph hfresh routines
  -- a suppressed call differs in its class and its successors only
  have hfollows : graph.Follows unit routines := by
    intro id cut hcut
    rw [hblocks id, block?_linkedGraph.2 ⟨cut, hcut, rfl⟩]
    refine ⟨_, rfl, ?_⟩
    dsimp only
    split
    next call hcall =>
      rw [← plain_linkedBlock unit routines (cutBlocks unit routines) id cut]
      exact Block.plain_withTail rfl
    next => exact plain_linkedBlock unit routines _ id cut
  refine ⟨graph, heq, fun id block hblock => ?_⟩
  rw [hblocks id] at hblock
  obtain ⟨linked, hlinked, rfl⟩ := Option.map_eq_some_iff.mp hblock
  obtain ⟨cut, hcut, rfl⟩ := block?_linkedGraph.1 hlinked
  split
  next call hcall =>
    obtain ⟨hiscall, hlabel, htarget, _, hid⟩ := Graph.localCall?_eq_some.1 hcall
    have hnatural := natural_tail hfresh (List.mem_of_getElem? hcut)
    obtain ⟨htail, hiscall⟩ := isCall_tail_linkedBlock _ id hnatural hiscall
    rw [htail] at hlabel
    exact ⟨none, some call.target,
      edges_of_suppressed hfresh hplain hunique hfollows hcut hiscall hlabel htarget hid⟩
  next =>
    exact edges_of_linked hfresh hplain hfollows hcut (linked_linkedBlock unit routines _ id cut)

end Corrected

/-! ## Parts of a graph -/

namespace Graph

variable {graph : Graph} {ids : List BlockId} {block : Block}

/-- The block with its successors counted among `ids`. -/
def renumbered (ids : List BlockId) (block : Block) : Block :=
  { block with
    successors := block.successors.map fun successor =>
      if successor ∈ ids then ids.idxOf successor else 0 }

theorem getElem?_filterMap {α β : Type} {f : α → Option β} {as : List α}
    (h : ∀ a ∈ as, (f a).isSome = true) (i : Nat) : (as.filterMap f)[i]? = as[i]?.bind f := by
  induction as generalizing i with
  | nil => rfl
  | cons a as ih =>
    obtain ⟨b, hb⟩ := Option.isSome_iff_exists.mp (h a List.mem_cons_self)
    rw [List.filterMap_cons_some hb]
    cases i with
    | zero => exact hb.symm
    | succ i => exact ih (fun a ha => h a (List.mem_cons_of_mem _ ha)) i

theorem isSome_block? {id : BlockId} : (graph.block? id).isSome = true ↔ id < graph.size := by
  unfold block?
  rw [Option.isSome_map]
  simp [size]

theorem successors_of_block? {id : BlockId} (h : graph.block? id = some block) :
    graph.successors id = block.successors := by
  obtain ⟨node, hnode, rfl⟩ := Option.map_eq_some_iff.mp h
  unfold successors
  rw [hnode]

/-- The blocks of a part are those of the graph with their successors numbered anew. -/
theorem block?_restrict (hids : ∀ id ∈ ids, id < graph.size) (place : BlockId) :
    (graph.restrict ids).block? place =
      ids[place]?.bind fun id => (graph.block? id).map (renumbered ids) := by
  unfold restrict
  rw [block?_ofBlocks]
  refine getElem?_filterMap (fun id hid => ?_) place
  rw [Option.isSome_map, isSome_block?]
  exact hids id hid

theorem block?_restrict_idxOf (hids : ∀ id ∈ ids, id < graph.size) {id : BlockId} (hid : id ∈ ids)
    (hblock : graph.block? id = some block) :
    (graph.restrict ids).block? (ids.idxOf id) = some (renumbered ids block) := by
  rw [block?_restrict hids, List.getElem?_idxOf hid, Option.bind_some, hblock]
  rfl

variable {unit : SourceUnit} {routines : RoutineLabels} {next? taken? : Option BlockId}

/-- The edges of a block stay right in a part of the graph that they do not leave. -/
theorem Edges.restrict (h : graph.Edges unit routines block next? taken?)
    (hids : ∀ id ∈ ids, id < graph.size) (hclosed : ∀ id ∈ block.successors, id ∈ ids) :
    (graph.restrict ids).Edges unit routines (renumbered ids block) (next?.map ids.idxOf)
      (taken?.map ids.idxOf) := by
  -- all successors are in the part, so each gets a new number
  have hsuccessors : (renumbered ids block).successors = block.successors.map ids.idxOf :=
    List.map_congr_left fun successor hsuccessor => if_pos (hclosed successor hsuccessor)
  have hnext : ∀ next, next? = some next → next ∈ ids :=
    fun next hnext => hclosed next ((h.members next).2 (.inl hnext))
  have htaken : ∀ taken, taken? = some taken → taken ∈ ids :=
    fun taken htaken => hclosed taken ((h.members taken).2 (.inr htaken))
  refine ⟨fun successor => ?_, ?_, ?_, ?_, ?_, ?_, ?_, h.forcedIff⟩
  · rw [hsuccessors, List.mem_map, Option.map_eq_some_iff, Option.map_eq_some_iff]
    simp only [h.members, or_and_right, exists_or]
  · rw [hsuccessors]
    refine h.nodup.map_on fun successor hsuccessor other _ heq => ?_
    exact (List.idxOf_inj (hclosed successor hsuccessor)).mp heq
  · intro place hplace
    obtain ⟨next, hsome, rfl⟩ := Option.map_eq_some_iff.mp hplace
    rw [hsuccessors, List.head?_map, h.nextFirst next hsome]
    rfl
  · rw [Option.isSome_map]
    exact h.nextIff
  · intro place hplace
    obtain ⟨next, hsome, rfl⟩ := Option.map_eq_some_iff.mp hplace
    obtain ⟨other, hother, haddress⟩ := h.nextBlock next hsome
    exact ⟨_, block?_restrict_idxOf hids (hnext next hsome) hother, haddress⟩
  · rw [Option.isSome_map]
    exact h.takenIff
  · intro place hplace
    obtain ⟨taken, hsome, rfl⟩ := Option.map_eq_some_iff.mp hplace
    obtain ⟨other, label, hother, hlabel, hdefines⟩ := h.takenBlock taken hsome
    exact ⟨_, label, block?_restrict_idxOf hids (htaken taken hsome) hother, hlabel, hdefines⟩

/-- The edges of a block are told by the blocks of the graph only. -/
theorem Edges.congr {graph' : Graph} (h : graph.Edges unit routines block next? taken?)
    (heq : ∀ id, graph'.block? id = graph.block? id) :
    graph'.Edges unit routines block next? taken? := by
  refine { h with nextBlock := ?_, takenBlock := ?_ }
  · simpa only [heq] using h.nextBlock
  · simpa only [heq] using h.takenBlock

/-! ## Partition -/

theorem mem_members {components : List Nat} {number : Nat} {id : BlockId} :
    id ∈ members components number ↔ components[id]? = some number := by
  unfold members
  rw [List.mem_map]
  constructor
  · rintro ⟨⟨component, id'⟩, hmem, rfl⟩
    obtain ⟨hentry, heq⟩ := List.mem_filter.mp hmem
    obtain rfl : component = number := beq_iff_eq.mp heq
    rw [← List.mk_mem_zipIdx_iff_getElem?]
    exact hentry
  · intro hcomponent
    refine ⟨(number, id), List.mem_filter.mpr ⟨?_, beq_self_eq_true number⟩, rfl⟩
    exact List.mk_mem_zipIdx_iff_getElem?.mpr hcomponent

theorem block?_withStarts (graph : Graph) (routines : RoutineLabels) (id : BlockId) :
    (graph.withStarts routines).value.block? id = graph.block? id := by
  unfold withStarts
  dsimp only
  split <;> rfl

/-- Each part belongs to a number. -/
theorem mem_partitionFrom {components numbers : List Nat} {part : Graph}
    (h : part ∈ (graph.partitionFrom routines components numbers).value) :
    ∃ number, part = ((graph.restrict (members components number)).withStarts routines).value := by
  induction numbers with
  | nil => cases h
  | cons number numbers ih =>
    rcases List.mem_cons.mp h with rfl | h
    · exact ⟨number, rfl⟩
    · exact ih h

end Graph

/-- The edges of the routines of a unit are the control flow of the tails. -/
theorem routines_edges {unit : SourceUnit} (hfresh : unit.Fresh) (hunique : unit.UniqueLabels)
    (hplain : unit.PlainSlots) (routines : RoutineLabels) :
    ∃ graphs, (unit.routines routines).run.value = .ok graphs ∧
      ∀ graph ∈ graphs, ∀ id block, graph.block? id = some block →
        ∃ next? taken?, graph.Edges unit routines block next? taken? := by
  obtain ⟨whole, hwhole, hedges⟩ := edges_correctLocalCalls hfresh hplain hunique routines
  refine ⟨(whole.partition routines).value, ?_, fun graph hgraph place block hblock => ?_⟩
  · unfold SourceUnit.routines
    rw [Attempt.value_bind_of_ok _ (value_graph hfresh routines), Attempt.value_bind_of_ok _ hwhole]
    rfl
  obtain ⟨number, rfl⟩ := Graph.mem_partitionFrom hgraph
  have hids : ∀ id ∈ Graph.members whole.components number, id < whole.size := by
    intro id hid
    rw [← Graph.length_components]
    exact (List.getElem?_eq_some_iff.mp (Graph.mem_members.1 hid)).1
  rw [Graph.block?_withStarts, Graph.block?_restrict hids] at hblock
  obtain ⟨id, hplace, hblock⟩ := Option.bind_eq_some_iff.mp hblock
  obtain ⟨original, horiginal, rfl⟩ := Option.map_eq_some_iff.mp hblock
  obtain ⟨next?, taken?, hedge⟩ := hedges id original horiginal
  have hclosed : ∀ successor ∈ original.successors,
      successor ∈ Graph.members whole.components number := by
    intro successor hsuccessor
    -- a successor is a block of the whole graph, and so of the same component
    have hlt : successor < whole.size := by
      rw [← Graph.isSome_block?]
      rcases (hedge.members successor).1 hsuccessor with hnext | htaken
      · obtain ⟨other, hother, _⟩ := hedge.nextBlock successor hnext
        rw [hother]
        rfl
      · obtain ⟨other, _, hother, _⟩ := hedge.takenBlock successor htaken
        rw [hother]
        rfl
    rw [← Graph.successors_of_block? horiginal] at hsuccessor
    rw [Graph.mem_members, Graph.components_eq_of_mem_successors hsuccessor hlt]
    exact Graph.mem_members.1 (List.mem_of_getElem? hplace)
  exact ⟨_, _, (hedge.restrict hids hclosed).congr (Graph.block?_withStarts _ routines)⟩

/-- A function that jumps inside itself with a call and comes back with a delayed branch. -/
def longJump : SourceUnit :=
  (SourceUnit.parse "jump.s" "f:\n bl g\n nop\ng:\n beq f\n nop\n bx lr\n").value.markDelaySlots [4]

/-- The call is a jump, with an edge to the block of its label and to no other. -/
theorem routines_edges_longJump :
    longJump.Fresh ∧ longJump.UniqueLabels ∧ longJump.PlainSlots ∧
      ∃ graph block, (longJump.routines ["f"]).run.value = .ok [graph] ∧
        graph.block? 0 = some block ∧ block.tail.callClass = .suppressed ∧
        block.successors = [2] ∧ graph.Edges longJump ["f"] block none (some 2) := by
  have hfresh : longJump.Fresh := (SourceUnit.fresh_parse _ _).markDelaySlots _
  have hunique : longJump.UniqueLabels := by decide
  have hplain : longJump.PlainSlots := by decide
  obtain ⟨graphs, hvalue, hedges⟩ := routines_edges hfresh hunique hplain ["f"]
  have hfirst : (match (longJump.routines ["f"]).run.value with
      | .ok graphs => graphs.map fun graph => (graph.block? 0).map fun block =>
          (block.successors, block.tail.callClass, block.tail.isUnconditional)
      | .error _ => []) = [some ([2], .suppressed, true)] := by
    decide +kernel
  rw [hvalue] at hfirst
  obtain ⟨graph, rfl, hgraph⟩ := List.map_eq_singleton_iff.1 hfirst
  obtain ⟨block, hblock, heq⟩ := Option.map_eq_some_iff.1 hgraph
  simp only [Prod.mk.injEq] at heq
  obtain ⟨hsuccessors, hclass, hjumps⟩ := heq
  obtain ⟨next?, taken?, hedge⟩ := hedges graph List.mem_cons_self 0 block hblock
  -- a jump goes on nowhere else, so the only edge is that to its label
  have hnext : next? = none := by
    rw [← Option.not_isSome_iff_eq_none]
    intro hnext
    exact Bool.false_ne_true ((hedge.nextIff.1 hnext).1.symm.trans hjumps)
  have htaken : taken? = some 2 := by
    have hmem : 2 ∈ block.successors := by rw [hsuccessors]; exact List.mem_cons_self
    rcases (hedge.members 2).1 hmem with hother | htaken
    · cases hnext.symm.trans hother
    · exact htaken
  rw [hnext, htaken] at hedge
  exact ⟨hfresh, hunique, hplain, graph, block, hvalue, hblock, hclass, hsuccessors, hedge⟩

end RamOverlay
