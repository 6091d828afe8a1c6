import RamOverlay.Proofs.Code.Suppressed
import RamOverlay.Flow.Call

/-!
# What calls are resolved to

A call names a label. All blocks of all routines that start with the label may be meant; the call
graph takes the last of them, in the order of the routines and of the blocks in them.

* **`Calls`, `StartsWith`**: the two sides of a call, told by the graphs.
* **`mem_edges_iff`, `mem_unknown_iff`**: a call has an edge to the entrance of its label, or the
  label is kept aside.
* **`routine_le_of_entrance?`**: no later routine has a block that starts with the label.
-/

namespace RamOverlay.CallGraph

variable {graphs : List Graph} {place caller callee : BlockRef} {block : Block} {label : String}
  {edge : CallEdge}

/-! ## Calling and called blocks -/

/-- The block at a place. -/
def block? (graphs : List Graph) (place : BlockRef) : Option Block :=
  graphs[place.routine]?.bind (·.block? place.block)

/-- The block at the place starts with the label. -/
def StartsWith (graphs : List Graph) (label : String) (place : BlockRef) : Prop :=
  ∃ block, block? graphs place = some block ∧ block.first.definesLabel label = true

/-- The block at the place has a call that goes to the label, or a branch into a routine that
does. -/
def Calls (graphs : List Graph) (place : BlockRef) (label : String) : Prop :=
  ∃ block, block? graphs place = some block ∧ ∃ insn ∈ block.instructions,
    insn.entersRoutine = true ∧ insn.destination.label? = some label

theorem block?_eq_some_iff : block? graphs place = some block ↔
    ∃ graph, graphs[place.routine]? = some graph ∧ graph.block? place.block = some block :=
  Option.bind_eq_some_iff

theorem mem_blocks_iff : (place, block) ∈ blocks graphs ↔ block? graphs place = some block := by
  rw [block?_eq_some_iff]
  constructor
  · -- the places of `blocks` are those of `zipIdx`, routine by routine
    intro hmem
    obtain ⟨⟨graph, routine⟩, hgraph, hentry⟩ := List.mem_flatMap.mp hmem
    obtain ⟨⟨id, node⟩, hnode, heq⟩ := List.mem_map.mp hentry
    obtain ⟨rfl, rfl⟩ := Prod.mk.inj heq
    refine ⟨graph, List.mem_zipIdx_iff_getElem?.mp hgraph, ?_⟩
    show graph.nodes[id]?.map (·.block) = _
    rw [Graph.mem_entries.1 hnode, Option.map_some]
  · rintro ⟨graph, hgraph, hblock⟩
    obtain ⟨node, hnode, rfl⟩ := Option.map_eq_some_iff.mp hblock
    refine List.mem_flatMap.mpr
      ⟨(graph, place.routine), List.mem_zipIdx_iff_getElem?.mpr hgraph, ?_⟩
    exact List.mem_map.mpr ⟨(place.block, node), Graph.mem_entries.2 hnode, rfl⟩

/-- The entrances are the labels with which blocks begin. -/
theorem mem_entrances_iff : (label, place) ∈ entrances graphs ↔ StartsWith graphs label place := by
  constructor
  · intro hmem
    obtain ⟨⟨place', block⟩, hblock, heq⟩ := List.mem_filterMap.mp hmem
    obtain ⟨label', hlabel, heq⟩ := Option.map_eq_some_iff.mp heq
    obtain ⟨rfl, rfl⟩ := Prod.mk.inj heq
    exact ⟨block, mem_blocks_iff.1 hblock, Block.label?_eq_some_iff.1 hlabel⟩
  · rintro ⟨block, hblock, hdefines⟩
    refine List.mem_filterMap.mpr ⟨(place, block), mem_blocks_iff.2 hblock, ?_⟩
    show block.label?.map _ = _
    rw [Block.label?_eq_some_iff.2 hdefines, Option.map_some]

theorem mem_sites_iff : (place, label) ∈ sites graphs ↔ Calls graphs place label := by
  constructor
  · intro hmem
    obtain ⟨⟨place', block⟩, hblock, hsite⟩ := List.mem_flatMap.mp hmem
    obtain ⟨label', hlabel, heq⟩ := List.mem_map.mp hsite
    obtain ⟨rfl, rfl⟩ := Prod.mk.inj heq
    obtain ⟨insn, hinsn, hdestination⟩ := List.mem_filterMap.mp hlabel
    obtain ⟨hinsn, henters⟩ := List.mem_filter.mp hinsn
    exact ⟨block, mem_blocks_iff.1 hblock, insn, hinsn, henters, hdestination⟩
  · rintro ⟨block, hblock, insn, hinsn, henters, hdestination⟩
    refine List.mem_flatMap.mpr ⟨(place, block), mem_blocks_iff.2 hblock, ?_⟩
    refine List.mem_map.mpr ⟨label, List.mem_filterMap.mpr ⟨insn, ?_, hdestination⟩, rfl⟩
    exact List.mem_filter.mpr ⟨hinsn, henters⟩

/-! ## The entrance of a label -/

theorem startsWith_of_entrance? (h : entrance? (entrances graphs) label = some place) :
    StartsWith graphs label place := by
  obtain ⟨⟨label', place'⟩, hlast, rfl⟩ := Option.map_eq_some_iff.mp h
  obtain ⟨hmem, heq⟩ := List.mem_filter.mp (List.mem_of_getLast? hlast)
  obtain rfl : label' = label := beq_iff_eq.mp heq
  exact mem_entrances_iff.1 hmem

theorem entrance?_eq_none_iff :
    entrance? (entrances graphs) label = none ↔ ∀ place, ¬ StartsWith graphs label place := by
  show ((entrances graphs).filter _).getLast?.map _ = none ↔ _
  rw [Option.map_eq_none_iff, List.getLast?_eq_none_iff, List.filter_eq_nil_iff]
  constructor
  · intro hnone place hstarts
    exact hnone _ (mem_entrances_iff.2 hstarts) (beq_self_eq_true label)
  · rintro hnone ⟨label', place⟩ hmem heq
    obtain rfl : label' = label := beq_iff_eq.mp heq
    exact hnone place (mem_entrances_iff.1 hmem)

/-- A label with which some block begins is resolved. -/
theorem exists_entrance? (h : StartsWith graphs label place) :
    ∃ callee, entrance? (entrances graphs) label = some callee := by
  cases hcallee : entrance? (entrances graphs) label with
  | none => exact absurd h (entrance?_eq_none_iff.1 hcallee place)
  | some callee => exact ⟨callee, rfl⟩

/-- The blocks are listed routine after routine. -/
theorem pairwise_routine_blocks (graphs : List Graph) :
    (blocks graphs).Pairwise fun entry entry' => entry.1.routine ≤ entry'.1.routine := by
  have hnumbers : (graphs.zipIdx.map (·.2)).Pairwise (· < ·) := by
    rw [List.zipIdx_map_snd]
    exact List.pairwise_lt_range'
  refine List.pairwise_flatMap.mpr ⟨?_, (List.pairwise_map.mp hnumbers).imp ?_⟩
  · rintro ⟨graph, routine⟩ _
    exact List.pairwise_map.mpr (List.pairwise_of_forall fun _ _ => Nat.le_refl routine)
  · intro entry entry' hlt x hx y hy
    obtain ⟨_, _, rfl⟩ := List.mem_map.mp hx
    obtain ⟨_, _, rfl⟩ := List.mem_map.mp hy
    exact Nat.le_of_lt hlt

/-- The last routine with the label is entered. -/
theorem routine_le_of_entrance? (h : entrance? (entrances graphs) label = some callee)
    (hstarts : StartsWith graphs label place) : place.routine ≤ callee.routine := by
  have hordered : (entrances graphs).Pairwise fun entry entry' =>
      entry.2.routine ≤ entry'.2.routine := by
    refine (pairwise_routine_blocks graphs).filterMap _ fun entry entry' hle x hx y hy => ?_
    obtain ⟨_, _, rfl⟩ := Option.map_eq_some_iff.mp hx
    obtain ⟨_, _, rfl⟩ := Option.map_eq_some_iff.mp hy
    exact hle
  obtain ⟨last, hlast, rfl⟩ := Option.map_eq_some_iff.mp h
  have hmem : (label, place) ∈ (entrances graphs).filter (·.1 == label) :=
    List.mem_filter.mpr ⟨mem_entrances_iff.2 hstarts, beq_self_eq_true label⟩
  -- the last of the entries with the label stands behind all others
  obtain ⟨front, hsplit⟩ := List.getLast?_eq_some_iff.mp hlast
  have hfiltered := hordered.filter (·.1 == label)
  rw [hsplit] at hmem hfiltered
  rcases List.mem_append.mp hmem with hfront | hself
  · exact (List.pairwise_append.mp hfiltered).2.2 _ hfront _ (List.mem_singleton_self last)
  · obtain rfl := List.mem_singleton.mp hself
    exact Nat.le_refl _

/-! ## Edges and unknown labels -/

/-- An edge is a call with the entrance that its label is resolved to. -/
theorem mem_edges_iff : edge ∈ (ofGraphs graphs).edges ↔ ∃ label, Calls graphs edge.caller label ∧
    entrance? (entrances graphs) label = some edge.callee := by
  constructor
  · intro hedge
    obtain ⟨⟨caller, label⟩, hsite, hedge⟩ := List.mem_filterMap.mp hedge
    obtain ⟨callee, hcallee, rfl⟩ := Option.map_eq_some_iff.mp hedge
    exact ⟨label, mem_sites_iff.1 hsite, hcallee⟩
  · rintro ⟨label, hcalls, hcallee⟩
    refine List.mem_filterMap.mpr ⟨(edge.caller, label), mem_sites_iff.2 hcalls, ?_⟩
    show (entrance? (entrances graphs) label).map _ = _
    rw [hcallee, Option.map_some]

/-- A label is unknown if it is called and no block begins with it. -/
theorem mem_unknown_iff : label ∈ (ofGraphs graphs).unknown ↔
    (∃ place, Calls graphs place label) ∧ ∀ place, ¬ StartsWith graphs label place := by
  show label ∈ Ascending.ofList (((sites graphs).map (·.2)).filter _) ↔ _
  rw [Ascending.mem_ofList, List.mem_filter, Option.isNone_iff_eq_none, entrance?_eq_none_iff]
  refine and_congr_left fun _ => ?_
  constructor
  · intro hmem
    obtain ⟨⟨place, label'⟩, hsite, rfl⟩ := List.mem_map.mp hmem
    exact ⟨place, mem_sites_iff.1 hsite⟩
  · rintro ⟨place, hcalls⟩
    exact List.mem_map.mpr ⟨(place, label), mem_sites_iff.2 hcalls, rfl⟩

end RamOverlay.CallGraph
