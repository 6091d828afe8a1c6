import RamOverlay.Proofs.Code.Flows
import RamOverlay.Proofs.Code.Parts

/-!
# Blocks that no start reaches

The code of a unit is found from its routine labels, so that all blocks are reached in the linked
graph. The correction of local calls takes away the edge behind a call. What it cuts off has a block
without predecessors, where its routine starts then, unless it is a loop.

* **`exists_named_reaches`**: the blocks of the linked graph are reached from those with routine
  labels.
* **`Graph.IsCorrected.exists_reaches`**: in the corrected graph they are reached from there or from
  right behind a call that became a jump.
* **`exists_cyclic`**: predecessors within a finite set lead around a cycle.
* **`reachable_iff`**: so all blocks are reached if the loops behind such calls are.
-/

namespace RamOverlay

open Discovery

/-- The block comes right behind a call that is used as a jump. -/
def BehindJump (graphs : List Graph) (block : Block) : Prop :=
  ∃ graph ∈ graphs, ∃ id other, graph.block? id = some other ∧
    other.tail.callClass = .suppressed ∧ block.address = other.last.address + 1

/-! ## Routes from the routine labels -/

section Linked

variable {unit : SourceUnit} {routines : RoutineLabels} {a : Nat} {id : BlockId}

/-- The block begins with a routine label. -/
def Named (unit : SourceUnit) (routines : RoutineLabels) (id : BlockId) : Prop :=
  ∃ cut, (cutBlocks unit routines)[id]? = some cut ∧
    ∃ label ∈ routines, cut.first.definesLabel label = true

variable (hfresh : unit.Fresh) (hplain : unit.PlainSlots)
include hfresh hplain

/-- A label of a routine that is asked for names the block that it begins. -/
theorem named_of_asked {label : String} (hlabel : label ∈ routines)
    (haddress : unit.addressOf? label = some a) (hreached : unit.Reached routines a)
    (hasked : (discover unit routines).value.Asked a) (hid : unit.LiesIn routines a id) :
    Named unit routines id := by
  obtain ⟨id', cut, _, hcut, rfl, hdefines⟩ :=
    blockAt?_of_asked hfresh hplain haddress hreached hasked
  obtain rfl := hid.unique hfresh ⟨cut, hcut, List.mem_cons_self⟩
  exact ⟨cut, hcut, label, hlabel, hdefines⟩

/-- A step of the flow leads on along an edge, or stays in its block. -/
theorem named_reaches_of_flows {b : Nat} (ha : unit.Reached routines a)
    (hflows : unit.Flows routines a b) (hid : unit.LiesIn routines b id)
    (ih : ∀ id, unit.LiesIn routines a id → ∃ start, Named unit routines start ∧
      (linkedGraph unit routines).Reaches start id) :
    ∃ start, Named unit routines start ∧ (linkedGraph unit routines).Reaches start id := by
  obtain ⟨origin, horigin⟩ := ha.exists_liesIn hfresh
  obtain ⟨start, hstart, hreaches⟩ := ih origin horigin
  refine ⟨start, hstart, ?_⟩
  rcases edge_of_flows hfresh hplain ha hflows horigin hid with rfl | hedge
  · exact hreaches
  · exact hreaches.trans (.edge hedge)

/-- What can be run is reached from the blocks with routine labels, if the called labels are among
these. -/
theorem exists_named_reaches (hown : ∀ label ∈ unit.routineLabels, label ∈ routines)
    (h : unit.Reached routines a) (hid : unit.LiesIn routines a id) :
    ∃ start, Named unit routines start ∧ (linkedGraph unit routines).Reaches start id := by
  obtain ⟨_, hasked, hentrances⟩ := discover_marked hfresh routines
  -- an entrance and the label of a call begin a named block; all else is reached by flow
  induction h generalizing id with
  | entrance hlabel haddress =>
    have htaken := hentrances _ (mem_entrances.2 ⟨_, hlabel, haddress⟩)
    exact ⟨id, named_of_asked hfresh hplain hlabel haddress (.entrance hlabel haddress)
      (.inl htaken) hid, .refl id⟩
  | call ha hinsn hcall hlabel haddress =>
    have hroutine := hown _ <| List.mem_append_right _ <| List.mem_filterMap.mpr
      ⟨_, List.mem_filter.mpr ⟨List.mem_of_getElem? hinsn, hcall⟩, hlabel⟩
    have htarget := ((followed_of_reached hfresh ha hinsn).call hcall _ _ hlabel haddress).1
    exact ⟨id, named_of_asked hfresh hplain hroutine haddress (.call ha hinsn hcall hlabel haddress)
      htarget hid, .refl id⟩
  | next ha hinsn hbranch hlt ih =>
    exact named_reaches_of_flows hfresh hplain ha (.next hinsn hbranch hlt) hid fun _ => ih
  | jump ha hinsn hbranch hlabel hlocal haddress ih =>
    exact named_reaches_of_flows hfresh hplain ha (.jump hinsn hbranch hlabel hlocal haddress) hid
      fun _ => ih
  | fall ha hinsn hbranch hfalls hlt ih =>
    exact named_reaches_of_flows hfresh hplain ha (.fall hinsn hbranch hfalls hlt) hid fun _ => ih

/-- The first entry of a block can be run. -/
theorem reached_first {cut : Block} (hcut : cut ∈ cutBlocks unit routines) :
    unit.Reached routines cut.address :=
  reached_of_le_tail hfresh hplain hcut (Nat.le_refl _)
    ((mem_addresses_iff hfresh hcut).1 cut.tail_mem_addresses).1

end Linked

/-! ## Routes in the corrected graph -/

namespace Graph.IsCorrected

variable {unit : SourceUnit} {routines : RoutineLabels} {graph : Graph} {id : BlockId}

/-- A block with a routine label is an entrance. -/
theorem entrance_of_named (h : graph.IsCorrected unit routines) (hid : Named unit routines id) :
    graph.Entrance routines id := by
  obtain ⟨cut, hcut, label, hlabel, hdefines⟩ := hid
  obtain ⟨block, hblock, hcorrected⟩ := h.corrected id cut hcut
  refine ⟨block, hblock, .inr ⟨label, hlabel, Block.label?_eq_some_iff.2 ?_⟩⟩
  rwa [Block.definesLabel_eq_of_plain hcorrected.plain_eq]

/-- A routine label that the unit defines begins a block, and a routine starts there. -/
theorem exists_start (h : graph.IsCorrected unit routines) (hfresh : unit.Fresh)
    (hplain : unit.PlainSlots) {label : String} {a : Nat} (hlabel : label ∈ routines)
    (haddress : unit.addressOf? label = some a) :
    ∃ part ∈ (graph.partition routines).value, ∃ place ∈ part.starts, ∃ block,
      part.block? place = some block ∧ block.address = a ∧
        block.first.definesLabel label = true := by
  have htaken := (discover_marked hfresh routines).2.2 a (mem_entrances.2 ⟨label, hlabel, haddress⟩)
  -- a walk starts at the label, so a block begins there
  obtain ⟨id, cut, _, hcut, rfl, hdefines⟩ :=
    blockAt?_of_asked hfresh hplain haddress (.entrance hlabel haddress) (.inl htaken)
  obtain ⟨original, horiginal, hsame⟩ := h.follows id cut hcut
  obtain ⟨number, place, hplace, hmem⟩ :=
    exists_routine routines (isSome_block?.1 (by rw [horiginal]; rfl))
  obtain ⟨block, hblock, hpart⟩ := (isPart_routine h.lt_size routines number).block place id hplace
  obtain rfl := Option.some.inj (horiginal.symm.trans hblock)
  -- the label makes the block an entrance, in the graph and so in its part
  have hentrance := ((isPart_restrict h.lt_size number).entrance_iff hplace).2
    (h.entrance_of_named ⟨cut, hcut, label, hlabel, hdefines⟩)
  rw [← Block.definesLabel_eq_of_plain hsame] at hdefines
  exact ⟨_, hmem, place, mem_starts_routine.2 ⟨hentrance.lt_size, .inl hentrance⟩, _, hpart,
    Block.address_eq_of_plain hsame, hdefines⟩

/-- An edge of the linked graph is one of the corrected graph, or leads behind a jump. -/
theorem edge_or_behind (h : graph.IsCorrected unit routines) (hfresh : unit.Fresh)
    (hplain : unit.PlainSlots) {u v : BlockId}
    (hedge : v ∈ (linkedGraph unit routines).successors u) :
    v ∈ graph.successors u ∨ ∃ block, graph.block? v = some block ∧ BehindJump [graph] block := by
  have hlt := lt_size_of_mem_successors hedge
  rw [size_linkedGraph] at hlt
  have hcut := List.getElem?_eq_getElem hlt
  generalize (cutBlocks unit routines)[u] = cut at hcut
  have hin := List.mem_of_getElem? hcut
  obtain ⟨block, hblock, hcorrected⟩ := h.corrected u cut hcut
  cases hcorrected with
  | kept =>
    rw [successors_linkedGraph hcut] at hedge
    exact .inl ((successors_of_block? hblock).symm ▸ hedge)
  | @jump label target hcall =>
    rw [successors_linkedGraph hcut, linkedBlock_of_isCall unit routines _ u hcall] at hedge
    rcases fallthrough_cutBlocks hfresh hplain hcut with
      ⟨heq, _, _, next, hnext, haddress⟩ | ⟨heq, _⟩
    · obtain rfl : v = u + 1 := List.mem_singleton.mp (heq ▸ hedge)
      -- the call had the edge to the next block only, which is behind the jump now
      obtain ⟨other, hother, hcorrected⟩ := h.corrected (u + 1) next hnext
      refine .inr ⟨other, hother, graph, List.mem_singleton_self graph, u, _, hblock, ?_, ?_⟩
      · rw [cut.tail_jumpTo]
      · rw [Block.address_eq_of_plain hcorrected.plain_eq, haddress,
          Block.last_address_eq_of_plain (cut.plain_jumpTo target),
          last_address_cutBlocks hfresh hin]
    · change v ∈ fallthrough _ _ _ at hedge
      rw [heq] at hedge
      cases hedge

/-- A block is reached from an entrance, or from right behind a jump. -/
theorem exists_reaches (h : graph.IsCorrected unit routines) (hfresh : unit.Fresh)
    (hplain : unit.PlainSlots) (hown : ∀ label ∈ unit.routineLabels, label ∈ routines)
    (hid : id < graph.size) : ∃ start, graph.Reaches start id ∧
      (graph.Entrance routines start ∨
        ∃ block, graph.block? start = some block ∧ BehindJump [graph] block) := by
  rw [h.size] at hid
  obtain ⟨start, hstart, blocks, hroute⟩ := exists_named_reaches hfresh hplain hown
    (reached_first hfresh hplain (List.getElem_mem hid))
    ⟨_, List.getElem?_eq_getElem hid, List.mem_cons_self⟩
  have hfirst : ∃ origin, graph.Reaches origin start ∧ (graph.Entrance routines origin ∨
      ∃ block, graph.block? origin = some block ∧ BehindJump [graph] block) :=
    ⟨start, .refl start, .inl (h.entrance_of_named hstart)⟩
  clear hstart hid
  -- the induction goes along the route in the linked graph; where an edge of it was taken away, the
  -- route in the corrected graph starts anew
  induction hroute with
  | refl u => exact hfirst
  | @step u w v _ hedge _ ih =>
    refine ih ?_
    rcases h.edge_or_behind hfresh hplain hedge with hkept | hbehind
    · obtain ⟨origin, hreaches, hcase⟩ := hfirst
      exact ⟨origin, hreaches.trans (.edge hkept), hcase⟩
    · exact ⟨w, .refl w, .inr hbehind⟩

end Graph.IsCorrected

/-! ## Loops -/

/-- In a finite set whose elements all have a predecessor in it, some element precedes itself. -/
theorem exists_cyclic {α : Type} (before : α → α → Prop)
    (htrans : ∀ a b c, before a b → before b c → before a c) (s : Finset α) (hs : s.Nonempty)
    (h : ∀ a ∈ s, ∃ b ∈ s, before b a) : ∃ a ∈ s, before a a := by
  classical
  induction s using Finset.strongInduction with
  | H s ih =>
    obtain ⟨a, ha⟩ := hs
    by_cases hself : before a a
    · exact ⟨a, ha, hself⟩
    -- what precedes `a` is a smaller set with the same property
    obtain ⟨b, hb, hba⟩ := h a ha
    obtain ⟨c, hc, hcyclic⟩ := ih (s.filter (before · a))
      (Finset.filter_ssubset.mpr ⟨a, ha, hself⟩) ⟨b, Finset.mem_filter.mpr ⟨hb, hba⟩⟩ <| by
        intro c hc
        obtain ⟨hcs, hca⟩ := Finset.mem_filter.mp hc
        obtain ⟨d, hd, hdc⟩ := h c hcs
        exact ⟨d, Finset.mem_filter.mpr ⟨hd, htrans d c a hdc hca⟩, hdc⟩
    exact ⟨c, (Finset.mem_filter.mp hc).1, hcyclic⟩

namespace Graph

variable {graph : Graph} {routines : RoutineLabels} {u v : BlockId}

theorem Reaches.head_lt_size (h : graph.Reaches u v) (hv : v < graph.size) : u < graph.size := by
  obtain ⟨blocks, hroute⟩ := h
  cases hroute with
  | refl => exact hv
  | step hedge _ => exact lt_size_of_mem_successors hedge

theorem Entered.of_reaches (h : graph.Entered routines u) (huv : graph.Reaches u v) :
    graph.Entered routines v := by
  obtain ⟨start, hstart, hcase⟩ := h
  exact ⟨start, hstart.trans huv, hcase⟩

theorem Entrance.entered (h : graph.Entrance routines u) : graph.Entered routines u :=
  ⟨u, .refl u, .inl h⟩

/-- All blocks are reached from the starts if those are that lie on cycles, among the blocks from
which one comes to all blocks that are not reached from entrances. -/
theorem entered_of_cyclic {behind : BlockId → Prop}
    (hreaches : ∀ v < graph.size, ∃ u, graph.Reaches u v ∧ (graph.Entrance routines u ∨ behind u))
    (hcyclic : ∀ u, behind u → graph.CommonCycle u u → graph.Entered routines u)
    (hv : v < graph.size) : graph.Entered routines v := by
  classical
  let lost := (Finset.range graph.size).filter fun u => behind u ∧ ¬ graph.Entered routines u
  have hmem : ∀ u, u ∈ lost ↔ u < graph.size ∧ behind u ∧ ¬ graph.Entered routines u := by
    intro u
    rw [Finset.mem_filter, Finset.mem_range]
  have hback : ∀ v < graph.size, ¬ graph.Entered routines v → ∃ u ∈ lost, graph.Reaches u v := by
    intro v hv hno
    obtain ⟨u, huv, hcase⟩ := hreaches v hv
    have hu : ¬ graph.Entered routines u := fun h => hno (h.of_reaches huv)
    exact ⟨u, (hmem u).2 ⟨huv.head_lt_size hv,
      hcase.resolve_left fun h => hu h.entered, hu⟩, huv⟩
  -- a lost block is no entrance, so an edge leads to it, from a block that is not reached
  have hbefore : ∀ v ∈ lost, ∃ u ∈ lost, ∃ w, graph.Reaches u w ∧ v ∈ graph.successors w := by
    intro v hv
    obtain ⟨hlt, _, hno⟩ := (hmem v).1 hv
    obtain ⟨w, hw⟩ : ∃ w, v ∈ graph.successors w := by
      by_contra hnone
      obtain ⟨block, hblock⟩ := Option.isSome_iff_exists.mp (isSome_block?.2 hlt)
      exact hno (Entrance.entered ⟨block, hblock, .inl (not_exists.mp hnone)⟩)
    obtain ⟨u, hu, huw⟩ := hback w (lt_size_of_mem_successors hw) fun h =>
      hno (h.of_reaches (.edge hw))
    exact ⟨u, hu, w, huw, hw⟩
  by_contra hno
  obtain ⟨first, hfirst, _⟩ := hback v hv hno
  obtain ⟨u, hu, w, huw, hedge⟩ := exists_cyclic
    (fun u v => ∃ w, graph.Reaches u w ∧ v ∈ graph.successors w)
    (fun a b c ⟨w, haw, hb⟩ ⟨x, hbx, hc⟩ => ⟨x, haw.trans ((Reaches.edge hb).trans hbx), hc⟩)
    lost ⟨first, hfirst⟩ hbefore
  obtain ⟨_, hbehind, hlost⟩ := (hmem u).1 hu
  have hcycle := commonCycle_of_edge huw hedge (.refl u)
  exact hlost (hcyclic u hbehind (hcycle.trans hcycle.symm))

end Graph

/-- All blocks of the routines of a unit are reached from the starts of their routines, if and only
if those are that lie on a cycle right behind a call that became a jump. -/
theorem reachable_iff {unit : SourceUnit} (hfresh : unit.Fresh) (hplain : unit.PlainSlots)
    {routines : RoutineLabels} (hown : ∀ label ∈ unit.routineLabels, label ∈ routines) :
    ∃ graphs, (unit.routines routines).run.value = .ok graphs ∧
      ((∀ graph ∈ graphs, graph.Reachable) ↔
        ∀ graph ∈ graphs, ∀ id block, graph.block? id = some block → BehindJump graphs block →
          graph.CommonCycle id id → ∃ start ∈ graph.starts, graph.Reaches start id) := by
  obtain ⟨whole, hvalue, hcorrected⟩ := exists_corrected hfresh routines
  have hrange := hcorrected.lt_size
  refine ⟨_, value_routines hfresh hvalue, ?_, ?_⟩
  · intro h graph hgraph id block hblock _ _
    exact h graph hgraph id (Graph.isSome_block?.1 (by rw [hblock]; rfl))
  intro h graph hgraph place hlt
  obtain ⟨number, rfl⟩ := Graph.eq_routine_of_mem_partition hgraph
  obtain ⟨id, hid⟩ := (Graph.isPart_routine hrange routines number).exists_id hlt
  refine (Graph.reached_iff_entered hrange hid).2 (Graph.entered_of_cyclic
    (fun _ => hcorrected.exists_reaches hfresh hplain hown) ?_
      (Graph.lt_size_of_mem_members (List.mem_of_getElem? hid)))
  -- what holds of the loops in the routines holds of those in the whole graph
  rintro id ⟨block, hblock, _, hwhole, hjump⟩ hcycle
  obtain rfl := List.mem_singleton.mp hwhole
  obtain ⟨number, place, hplace, hmem⟩ :=
    Graph.exists_routine routines (Graph.isSome_block?.1 (by rw [hblock]; rfl))
  have hpart := Graph.isPart_routine hrange routines number
  obtain ⟨original, horiginal, hrenumbered⟩ := hpart.block place id hplace
  obtain rfl := Option.some.inj (hblock.symm.trans horiginal)
  refine (Graph.reached_iff_entered hrange hplace).1
    (h _ hmem place _ hrenumbered ?_ (hpart.commonCycle hplace hcycle))
  exact (Graph.exists_block_partition_iff hrange fun _ _ => Iff.rfl).2 hjump

/-- A function that calls itself and then counts in a loop, from which it jumps to its end. -/
def recursiveLoop : SourceUnit :=
  (SourceUnit.parse "loop.s"
    ("\t.type\tf, %function\nf:\n\tcmp\tr0, #0\n\tbeq\t.L3\n\tbl\tf\n.L2:\n"
      ++ "\tsubs\tr4, r4, #1\n\tbeq\t.L3\n\tadds\tr0, r0, #1\n\tb\t.L2\n.L3:\n"
      ++ "\tpop\t\x7br4, pc\x7d\n")).value

theorem ownLabels_recursiveLoop : ∀ label ∈ recursiveLoop.routineLabels, label ∈ ["f"] := by
  decide +kernel

/-- The theorem applied to `recursiveLoop`; its loop is the one that no start reaches. -/
theorem reachable_iff_recursiveLoop :
    recursiveLoop.Fresh ∧ recursiveLoop.PlainSlots ∧
      (∀ label ∈ recursiveLoop.routineLabels, label ∈ ["f"]) ∧
        ∃ graphs, (recursiveLoop.routines ["f"]).run.value = .ok graphs ∧
          ((∀ graph ∈ graphs, graph.Reachable) ↔
            ∀ graph ∈ graphs, ∀ id block, graph.block? id = some block →
              BehindJump graphs block → graph.CommonCycle id id →
                ∃ start ∈ graph.starts, graph.Reaches start id) := by
  have hfresh : recursiveLoop.Fresh := SourceUnit.fresh_parse _ _
  have hplain : recursiveLoop.PlainSlots := SourceUnit.plainSlots_parse _ _
  have hown := ownLabels_recursiveLoop
  exact ⟨hfresh, hplain, hown, reachable_iff hfresh hplain hown⟩

/-- The loop behind the recursive call is not reached from the start of its function. -/
theorem not_reachable_recursiveLoop :
    recursiveLoop.Fresh ∧ (∀ label ∈ recursiveLoop.routineLabels, label ∈ ["f"]) ∧
      ∃ graphs, (recursiveLoop.routines ["f"]).run.value = .ok graphs ∧
        ¬ ∀ graph ∈ graphs, graph.Reachable := by
  have hfresh : recursiveLoop.Fresh := SourceUnit.fresh_parse _ _
  have hrun : ((recursiveLoop.routines ["f"]).run.value.toOption.any fun graphs =>
      graphs.any fun graph => graph.starts == [0] && decide (2 < graph.size) &&
        [0, 1, 4].all fun id => (graph.successors id).all [0, 1, 4].contains) = true := by
    decide +kernel
  obtain ⟨whole, hvalue, _⟩ := exists_corrected hfresh ["f"]
  have hgraphs := value_routines hfresh hvalue
  refine ⟨hfresh, ownLabels_recursiveLoop, _, hgraphs, fun hreach => ?_⟩
  rw [hgraphs, Except.toOption, Option.any_some, List.any_eq_true] at hrun
  obtain ⟨graph, hmem, hfacts⟩ := hrun
  simp only [Bool.and_eq_true, beq_iff_eq, decide_eq_true_eq, List.all_eq_true,
    List.contains_iff_mem] at hfacts
  obtain ⟨⟨hstarts, hlt⟩, hclosed⟩ := hfacts
  obtain ⟨start, hstart, hreaches⟩ := hreach graph hmem 2 hlt
  rw [hstarts, List.mem_singleton] at hstart
  have htwo := hreaches.mem_of_closed hclosed (hstart ▸ List.mem_cons_self)
  revert htwo
  decide

end RamOverlay
