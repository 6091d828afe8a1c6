import Mathlib.Data.List.Nodup
import RamOverlay.Proofs.Code.Joined
import RamOverlay.Proofs.Code.RoutineEdges
import RamOverlay.Proofs.Loop.Route

/-!
# The parts of a graph

A routine is a part of the graph of its unit: the blocks of one component under new numbers.

* **`IsPart`**: the blocks of a part are those of the graph, and no edge enters or leaves it.
* **`IsPart.reaches_iff`**: so control takes the same ways in the part and in the graph.
* **`isPart_routine`, `exists_routine`**: the routines are parts, and each block lies in one.
* **`reached_iff_entered`**: which blocks are reached from the starts of their routines, told in the
  whole graph.
-/

namespace RamOverlay.Graph

variable {graph part : Graph} {ids : List BlockId} {routines : RoutineLabels} {place : Nat}
  {id : BlockId}

/-! ## The routines of a partition -/

theorem lt_foldl_max {numbers : List Nat} {number count : Nat} (h : number ∈ numbers) :
    number < numbers.foldl (fun count number => max count (number + 1)) count := by
  -- the maximum only grows
  have hle : ∀ (numbers : List Nat) (count : Nat),
      count ≤ numbers.foldl (fun count number => max count (number + 1)) count := by
    intro numbers
    induction numbers with
    | nil => exact Nat.le_refl
    | cons first numbers ih => exact fun count => Nat.le_trans (Nat.le_max_left _ _) (ih _)
  induction numbers generalizing count with
  | nil => cases h
  | cons first numbers ih =>
    rcases List.mem_cons.mp h with rfl | h
    · exact Nat.lt_of_lt_of_le (Nat.le_max_right count (number + 1)) (hle numbers _)
    · exact ih h

theorem mem_partitionFrom_of_mem {components numbers : List Nat} {number : Nat}
    (h : number ∈ numbers) :
    ((graph.restrict (members components number)).withStarts routines).value ∈
      (graph.partitionFrom routines components numbers).value := by
  induction numbers with
  | nil => cases h
  | cons first numbers ih =>
    rcases List.mem_cons.mp h with rfl | h
    · exact List.mem_cons_self
    · exact List.mem_cons_of_mem _ (ih h)

/-! ## Blocks under new numbers -/

/-- `part` has the blocks `ids` of the graph, in this order, and no edge enters or leaves them. -/
structure IsPart (graph : Graph) (ids : List BlockId) (part : Graph) : Prop where
  nodup : ids.Nodup
  size : part.size = ids.length
  block : ∀ (place : Nat) (id : BlockId), ids[place]? = some id →
    ∃ block, graph.block? id = some block ∧ part.block? place = some (renumbered ids block)
  forward : ∀ id ∈ ids, ∀ next ∈ graph.successors id, next ∈ ids
  backward : ∀ id ∈ ids, ∀ other, id ∈ graph.successors other → other ∈ ids

namespace IsPart

variable {u v : BlockId} {p q : Nat}

theorem exists_id (h : graph.IsPart ids part) (hplace : place < part.size) :
    ∃ id, ids[place]? = some id :=
  ⟨_, List.getElem?_eq_getElem (h.size ▸ hplace)⟩

theorem successors_eq (h : graph.IsPart ids part) (hp : ids[p]? = some u) :
    part.successors p = (graph.successors u).map ids.idxOf := by
  obtain ⟨block, hblock, hpart⟩ := h.block p u hp
  rw [successors_of_block? hpart, successors_of_block? hblock]
  refine List.map_congr_left fun next hnext => if_pos ?_
  exact h.forward u (List.mem_of_getElem? hp) next (successors_of_block? hblock ▸ hnext)

/-- A part has just those edges of the graph that are between its blocks. -/
theorem mem_successors_iff (h : graph.IsPart ids part) (hp : ids[p]? = some u)
    (hq : ids[q]? = some v) : q ∈ part.successors p ↔ v ∈ graph.successors u := by
  obtain ⟨hlt, rfl⟩ := List.getElem?_eq_some_iff.mp hq
  rw [h.successors_eq hp, List.mem_map]
  constructor
  · rintro ⟨next, hnext, rfl⟩
    rwa [List.getElem_idxOf]
  · exact fun hnext => ⟨ids[q], hnext, h.nodup.idxOf_getElem q hlt⟩

/-- Paths stay within a part, so a part has the paths of the graph. -/
theorem reaches_iff (h : graph.IsPart ids part) (hp : ids[p]? = some u) (hq : ids[q]? = some v) :
    part.Reaches p q ↔ graph.Reaches u v := by
  constructor
  · rintro ⟨blocks, hroute⟩
    -- the induction is on the route; the block follows the place
    induction hroute generalizing u with
    | refl p =>
      obtain rfl := Option.some.inj (hp.symm.trans hq)
      exact .refl u
    | @step p r q _ hedge _ ih =>
      have hr : r < part.size := by
        rw [h.successors_eq hp] at hedge
        obtain ⟨next, hnext, rfl⟩ := List.mem_map.mp hedge
        rw [h.size]
        exact List.idxOf_lt_length_of_mem (h.forward u (List.mem_of_getElem? hp) next hnext)
      obtain ⟨w, hw⟩ := h.exists_id hr
      exact (Reaches.edge ((h.mem_successors_iff hp hw).1 hedge)).trans (ih hw hq)
  · rintro ⟨blocks, hroute⟩
    induction hroute generalizing p with
    | refl u =>
      obtain ⟨hlt, hu⟩ := List.getElem?_eq_some_iff.mp hp
      obtain ⟨hlt', rfl⟩ := List.getElem?_eq_some_iff.mp hq
      obtain rfl : p = q := (h.nodup.getElem_inj_iff).mp hu
      exact .refl p
    | @step u w v _ hedge _ ih =>
      have hmem := h.forward u (List.mem_of_getElem? hp) w hedge
      have hr := List.getElem?_idxOf hmem
      exact (Reaches.edge ((h.mem_successors_iff hp hr).2 hedge)).trans (ih hr hq)

/-- A cycle of the graph is one of the part that its blocks are in. -/
theorem commonCycle (h : graph.IsPart ids part) (hp : ids[p]? = some u)
    (hcycle : graph.CommonCycle u u) : part.CommonCycle p p := by
  obtain ⟨next, hnext, hback⟩ := commonCycle_self.1 hcycle
  have hq := List.getElem?_idxOf (h.forward u (List.mem_of_getElem? hp) next hnext)
  exact commonCycle_self.2
    ⟨_, (h.mem_successors_iff hp hq).2 hnext, (h.reaches_iff hq hp).2 hback⟩

end IsPart

/-! ## Entrances -/

/-- Control may enter a routine at the block: no edge leads to it, or it has a routine label. -/
def Entrance (graph : Graph) (routines : RoutineLabels) (id : BlockId) : Prop :=
  ∃ block, graph.block? id = some block ∧
    ((∀ other, id ∉ graph.successors other) ∨ ∃ label ∈ routines, block.label? = some label)

theorem Entrance.lt_size (h : graph.Entrance routines id) : id < graph.size := by
  obtain ⟨block, hblock, _⟩ := h
  exact isSome_block?.1 (by rw [hblock]; rfl)

/-- An entrance has no block before it, or it begins with the label of a routine. -/
theorem isEntrance_iff {block : Block} : graph.isEntrance routines id block = true ↔
    (∀ other, id ∉ graph.successors other) ∨ ∃ label ∈ routines, block.label? = some label := by
  unfold isEntrance
  rw [Bool.or_eq_true]
  refine or_congr ?_ ?_
  · rw [List.isEmpty_iff, List.eq_nil_iff_forall_not_mem]
    exact forall_congr' fun other => not_congr mem_predecessors
  · cases hlabel : block.label? with
    | none => simp
    | some label => simp

theorem isEntrance_iff_entrance {node : Node} (hmem : (id, node) ∈ graph.entries) :
    graph.isEntrance routines id node.block = true ↔ graph.Entrance routines id := by
  have hblock : graph.block? id = some node.block := by
    rw [block?, mem_entries.1 hmem, Option.map_some]
  rw [isEntrance_iff]
  refine ⟨fun hcase => ⟨node.block, hblock, hcase⟩, ?_⟩
  rintro ⟨block, hblock', hcase⟩
  obtain rfl := Option.some.inj (hblock.symm.trans hblock')
  exact hcase

theorem mem_filter_isEntrance : id ∈ (graph.entries.filter fun (id, node) =>
    graph.isEntrance routines id node.block).map (·.1) ↔ graph.Entrance routines id := by
  rw [List.mem_map]
  constructor
  · rintro ⟨⟨id', node⟩, hmem, rfl⟩
    obtain ⟨hentry, htrue⟩ := List.mem_filter.mp hmem
    exact (isEntrance_iff_entrance hentry).1 htrue
  · rintro ⟨block, hblock, hcase⟩
    obtain ⟨node, hnode, rfl⟩ := Option.map_eq_some_iff.mp hblock
    exact ⟨(id, node), List.mem_filter.mpr ⟨mem_entries.2 hnode, isEntrance_iff.2 hcase⟩, rfl⟩

/-- A routine starts at its entrances, or anywhere if it has none. -/
theorem mem_starts_withStarts {start : BlockId} :
    start ∈ (graph.withStarts routines).value.starts ↔ start < graph.size ∧
      (graph.Entrance routines start ∨ ∀ other, ¬ graph.Entrance routines other) := by
  have hentrance := @mem_filter_isEntrance graph routines
  unfold withStarts
  dsimp only
  generalize List.map (·.1) (List.filter _ graph.entries) = starts at hentrance ⊢
  split
  next hempty =>
    -- no block is an entrance, and all of them are starts
    have hnone : ∀ other, ¬ graph.Entrance routines other := by
      intro other hother
      rw [← hentrance, List.isEmpty_iff.mp hempty] at hother
      cases hother
    show start ∈ graph.ids ↔ _
    rw [ids, List.mem_range]
    exact ⟨fun hlt => ⟨hlt, .inr hnone⟩, And.left⟩
  next hempty =>
    show start ∈ starts ↔ _
    rw [hentrance]
    constructor
    · exact fun hstart => ⟨hstart.lt_size, .inl hstart⟩
    · rintro ⟨_, hstart | hnone⟩
      · exact hstart
      · -- there is an entrance, against the second alternative
        obtain ⟨id, hid⟩ := List.exists_mem_of_ne_nil _ (mt List.isEmpty_iff.mpr hempty)
        exact absurd (hentrance.1 hid) (hnone id)

/-- A block is an entrance of its part if and only if it is one of the graph. -/
theorem IsPart.entrance_iff (h : graph.IsPart ids part) (hplace : ids[place]? = some id) :
    part.Entrance routines place ↔ graph.Entrance routines id := by
  obtain ⟨block, hblock, hpart⟩ := h.block place id hplace
  -- a part has all edges of the graph into its blocks
  have hedges : (∀ other, place ∉ part.successors other) ↔
      ∀ other, id ∉ graph.successors other := by
    constructor
    · intro hno other hother
      have hmem := h.backward id (List.mem_of_getElem? hplace) other hother
      exact hno _ ((h.mem_successors_iff (List.getElem?_idxOf hmem) hplace).2 hother)
    · intro hno other hother
      obtain ⟨origin, horigin⟩ := h.exists_id (lt_size_of_mem_successors hother)
      exact hno origin ((h.mem_successors_iff horigin hplace).1 hother)
  constructor
  · rintro ⟨block', hblock', hcase⟩
    obtain rfl := Option.some.inj (hpart.symm.trans hblock')
    exact ⟨block, hblock, hcase.imp_left hedges.1⟩
  · rintro ⟨block', hblock', hcase⟩
    obtain rfl := Option.some.inj (hblock.symm.trans hblock')
    exact ⟨_, hpart, hcase.imp_left hedges.2⟩

/-! ## Components as parts -/

/-- The routine with the blocks of one component. -/
def routine (graph : Graph) (routines : RoutineLabels) (number : Nat) : Graph :=
  ((graph.restrict (members graph.components number)).withStarts routines).value

/-- The starts are the entrances, or all blocks where there are none. -/
theorem mem_starts_routine {number : Nat} {start : BlockId} :
    start ∈ (graph.routine routines number).starts ↔
      start < (graph.restrict (members graph.components number)).size ∧
        ((graph.restrict (members graph.components number)).Entrance routines start ∨
          ∀ other, ¬ (graph.restrict (members graph.components number)).Entrance routines other) :=
  mem_starts_withStarts

theorem nodup_members (components : List Nat) (number : Nat) :
    (members components number).Nodup := by
  have hids : (components.zipIdx.map (·.2)).Nodup := by
    rw [List.zipIdx_map_snd]
    exact List.nodup_range'
  exact hids.sublist (List.filter_sublist.map _)

theorem size_restrict (hids : ∀ id ∈ ids, id < graph.size) :
    (graph.restrict ids).size = ids.length := by
  unfold restrict ofBlocks size
  rw [List.size_toArray, List.length_map, List.filterMap_length_eq_length]
  intro id hid
  rw [Option.isSome_map, isSome_block?]
  exact hids id hid

theorem size_withStarts (graph : Graph) (routines : RoutineLabels) :
    (graph.withStarts routines).value.size = graph.size := by
  unfold withStarts
  dsimp only
  split <;> rfl

theorem IsPart.withStarts (h : graph.IsPart ids part) (routines : RoutineLabels) :
    graph.IsPart ids (part.withStarts routines).value where
  nodup := h.nodup
  size := (size_withStarts part routines).trans h.size
  block place id hplace := by
    rw [block?_withStarts]
    exact h.block place id hplace
  forward := h.forward
  backward := h.backward

theorem lt_size_of_mem_members {number : Nat} (h : id ∈ members graph.components number) :
    id < graph.size := by
  rw [← length_components]
  exact (List.getElem?_eq_some_iff.mp (mem_members.1 h)).1

section Component

variable (hrange : ∀ id, ∀ next ∈ graph.successors id, next < graph.size)
include hrange

theorem isPart_restrict (number : Nat) :
    graph.IsPart (members graph.components number)
      (graph.restrict (members graph.components number)) := by
  have hids : ∀ id ∈ members graph.components number, id < graph.size :=
    fun _ => lt_size_of_mem_members
  -- an edge stays in its component, in both directions
  have hsame : ∀ id, ∀ next ∈ graph.successors id,
      graph.components[next]? = graph.components[id]? := fun id next hnext =>
    components_eq_of_mem_successors hnext (hrange id next hnext)
  refine ⟨nodup_members _ _, size_restrict hids, fun place id hplace => ?_,
    fun id hid next hnext => ?_, fun id hid other hother => ?_⟩
  · obtain ⟨block, hblock⟩ :=
      Option.isSome_iff_exists.mp (isSome_block?.2 (hids id (List.mem_of_getElem? hplace)))
    refine ⟨block, hblock, ?_⟩
    rw [block?_restrict hids, hplace, Option.bind_some, hblock]
    rfl
  · rw [mem_members, hsame id next hnext]
    exact mem_members.1 hid
  · rw [mem_members, ← hsame other id hother]
    exact mem_members.1 hid

theorem isPart_routine (routines : RoutineLabels) (number : Nat) :
    graph.IsPart (members graph.components number) (graph.routine routines number) :=
  (isPart_restrict hrange number).withStarts routines

end Component

theorem eq_routine_of_mem_partition {routine : Graph}
    (h : routine ∈ (graph.partition routines).value) :
    ∃ number, routine = graph.routine routines number :=
  mem_partitionFrom h

/-- Each block lies in a routine of the partition. -/
theorem exists_routine (routines : RoutineLabels) (hid : id < graph.size) : ∃ number place : Nat,
    (members graph.components number)[place]? = some id ∧
      graph.routine routines number ∈ (graph.partition routines).value := by
  obtain ⟨number, hnumber, _⟩ := exists_component hid
  refine ⟨number, _, List.getElem?_idxOf (mem_members.2 hnumber), ?_⟩
  refine mem_partitionFrom_of_mem (List.mem_range.mpr ?_)
  exact lt_foldl_max (List.mem_of_getElem? hnumber)

/-- The routines have the blocks of the graph, but for the numbers of their successors. -/
theorem exists_block_partition_iff
    (hrange : ∀ id, ∀ next ∈ graph.successors id, next < graph.size) {p : Block → Prop}
    (hp : ∀ ids block, p (renumbered ids block) ↔ p block) :
    (∃ routine ∈ (graph.partition routines).value, ∃ place block,
        routine.block? place = some block ∧ p block) ↔
      ∃ id block, graph.block? id = some block ∧ p block := by
  constructor
  · rintro ⟨routine, hmem, place, block, hblock, hholds⟩
    obtain ⟨number, rfl⟩ := eq_routine_of_mem_partition hmem
    have hpart := isPart_routine hrange routines number
    obtain ⟨id, hid⟩ := hpart.exists_id (isSome_block?.1 (by rw [hblock]; rfl))
    -- a block of a part is one of the graph with other numbers
    obtain ⟨original, horiginal, hplace⟩ := hpart.block place id hid
    obtain rfl := Option.some.inj (hblock.symm.trans hplace)
    exact ⟨id, original, horiginal, (hp _ original).1 hholds⟩
  · rintro ⟨id, block, hblock, hholds⟩
    obtain ⟨number, place, hid, hmem⟩ :=
      exists_routine routines (isSome_block?.1 (by rw [hblock]; rfl))
    obtain ⟨original, horiginal, hplace⟩ :=
      (isPart_routine hrange routines number).block place id hid
    obtain rfl := Option.some.inj (hblock.symm.trans horiginal)
    exact ⟨_, hmem, place, _, hplace, (hp _ block).2 hholds⟩

/-! ## Blocks that are reached from the starts -/

/-- Control comes to the block from a start of its routine. -/
def Entered (graph : Graph) (routines : RoutineLabels) (id : BlockId) : Prop :=
  ∃ start, graph.Reaches start id ∧ (graph.Entrance routines start ∨
    ∀ other, graph.Joined start other → ¬ graph.Entrance routines other)

/-- A path joins its ends. -/
theorem Reaches.joined {u v : BlockId} (h : graph.Reaches u v) : graph.Joined u v := by
  obtain ⟨blocks, hroute⟩ := h
  induction hroute with
  | refl u => exact .refl u
  | step hedge _ ih => exact (joined_of_mem_successors hedge).trans _ _ _ ih

/-- All blocks with one number are joined. -/
theorem joined_of_mem_members {number : Nat} {u v : BlockId}
    (hu : u ∈ members graph.components number) (hv : v ∈ members graph.components number) :
    graph.Joined u v :=
  joined_of_components_eq (lt_size_of_mem_members hu) (lt_size_of_mem_members hv)
    ((mem_members.1 hu).trans (mem_members.1 hv).symm)

/-- The starts of a routine reach what its entrances reach in the whole graph. -/
theorem reached_iff_entered (hrange : ∀ id, ∀ next ∈ graph.successors id, next < graph.size)
    {number : Nat} (hplace : (members graph.components number)[place]? = some id) :
    (∃ start ∈ (graph.routine routines number).starts,
      (graph.routine routines number).Reaches start place) ↔ graph.Entered routines id := by
  have hpart := isPart_restrict hrange number
  have hroutine := isPart_routine hrange routines number
  have hjoined : ∀ {u v : BlockId}, graph.Joined u v →
      u ∈ members graph.components number → v ∈ members graph.components number := by
    intro u v huv hu
    rw [mem_members] at hu ⊢
    exact (components_eq_of_joined hrange huv).symm.trans hu
  constructor
  · rintro ⟨start, hstart, hreaches⟩
    obtain ⟨hlt, hcase⟩ := mem_starts_routine.1 hstart
    obtain ⟨origin, horigin⟩ := hpart.exists_id hlt
    refine ⟨origin, (hroutine.reaches_iff horigin hplace).1 hreaches, ?_⟩
    refine hcase.imp (hpart.entrance_iff horigin).1 fun hnone other hother hentrance => ?_
    have hmem := hjoined hother (List.mem_of_getElem? horigin)
    exact hnone _ ((hpart.entrance_iff (List.getElem?_idxOf hmem)).2 hentrance)
  · rintro ⟨origin, hreaches, hcase⟩
    have hmem := hjoined (.symm _ _ hreaches.joined) (List.mem_of_getElem? hplace)
    have horigin := List.getElem?_idxOf hmem
    refine ⟨_, mem_starts_routine.2 ⟨?_, ?_⟩, (hroutine.reaches_iff horigin hplace).2 hreaches⟩
    · rw [hpart.size]
      exact List.idxOf_lt_length_of_mem hmem
    · -- an entrance of the part would be one of the graph, in the same component
      refine hcase.imp (hpart.entrance_iff horigin).2 fun hnone other hentrance => ?_
      obtain ⟨other', hother'⟩ := hpart.exists_id hentrance.lt_size
      exact hnone other' (joined_of_mem_members hmem (List.mem_of_getElem? hother'))
        ((hpart.entrance_iff hother').1 hentrance)

end RamOverlay.Graph
