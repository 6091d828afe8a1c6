import RamOverlay.Proofs.Code.Parts

/-!
# A partition keeps the whole graph

* **`Ranked`**: while the blocks are numbered in ascending order, a number is given only when all
  smaller ones stand before it. `Ranked.markFrom` is the step for one component.
* **`exists_lt_of_components`**: so components are numbered in the order of their lowest blocks.
* **`IsSplit`**: a part has the blocks of its component and their edges, and where it starts.
* **`splits_partition`**: there is one part for each component, and nothing is lost.
* **`partition_congr`**: routine labels that make the same entrances give the same parts.
-/

namespace RamOverlay.Graph

variable {graph : Graph} {routines : RoutineLabels} {marks : Marks} {id u v : BlockId}
  {next m n : Nat}

/-! ## The order of the numbers -/

/-- The block comes before all others of its component. -/
def Lowest (graph : Graph) (id : BlockId) : Prop := ∀ other, graph.Joined id other → id ≤ other

/-- The blocks before `id` have numbers, all numbers below `next` stand before `id`, and below each
number the smaller ones. -/
structure Ranked (next : Nat) (id : BlockId) (marks : Marks) : Prop where
  marked : ∀ k < id, marks[k]? ≠ some none
  below : ∀ n < next, ∃ k < id, marks[k]? = some (some n)
  rank : ∀ (k : BlockId) (n : Nat), marks[k]? = some (some n) →
    ∀ m < n, ∃ j < k, marks[j]? = some (some m)

/-- A search that starts at the first unmarked block gives it the next number. -/
theorem Ranked.markFrom (h : Ranked next id marks) (hid : marks[id]? = some none)
    (hsize : marks.size = graph.size) :
    Ranked (next + 1) (id + 1) (graph.markFrom next graph.size id marks) := by
  obtain ⟨hfilled, hmarked⟩ := markFrom_filled_of_size graph next id hsize
  have hlt : id < marks.size := (Array.getElem?_eq_some_iff.mp hid).1
  have hnew : (graph.markFrom next graph.size id marks)[id]? = some (some next) := by
    obtain ⟨n, hn⟩ := exists_number (hfilled.size ▸ hlt) hmarked
    rw [hn, (hfilled.new id n hid hn).1]
  refine ⟨fun k hk => ?_, fun n hn => ?_, fun k n hk m hm => ?_⟩
  · rcases Nat.lt_or_eq_of_le (Nat.le_of_lt_succ hk) with hk | rfl
    · exact hfilled.marked (h.marked k hk)
    · exact hmarked
  · rcases Nat.lt_or_eq_of_le (Nat.le_of_lt_succ hn) with hn | rfl
    · obtain ⟨k, hk, hmark⟩ := h.below n hn
      exact ⟨k, Nat.lt_succ_of_lt hk, hfilled.kept k n hmark⟩
    · exact ⟨id, Nat.lt_succ_self id, hnew⟩
  · by_cases hold : marks[k]? = some none
    · -- a block of the new component does not come before its first one
      obtain ⟨rfl, _⟩ := hfilled.new k n hold hk
      obtain ⟨j, hj, hmark⟩ := h.below m hm
      have hle : id ≤ k := Nat.le_of_not_lt fun hlt => h.marked k hlt hold
      exact ⟨j, Nat.lt_of_lt_of_le hj hle, hfilled.kept j m hmark⟩
    · obtain ⟨n', hn'⟩ :=
        exists_number (hfilled.size ▸ (Array.getElem?_eq_some_iff.mp hk).1) hold
      obtain rfl : n = n' := by simpa using hk.symm.trans (hfilled.kept k n' hn')
      obtain ⟨j, hj, hmark⟩ := h.rank k n hn' m hm
      exact ⟨j, hj, hfilled.kept j m hmark⟩

/-- The numbers are given in the order of the first blocks that get them. -/
theorem markAll_ranked (count : Nat) (h : Ranked next id marks) (hsize : marks.size = graph.size) :
    ∃ next', Ranked next' (id + count) (graph.markAll next marks (List.range' id count)) := by
  induction count generalizing next id marks with
  | zero => exact ⟨next, h⟩
  | succ count ih =>
    rw [List.range'_succ, markAll, Nat.add_comm count 1, ← Nat.add_assoc]
    split
    -- an unmarked block gets the next number; else the numbers stay as they are
    next hnone =>
      obtain ⟨hfilled, _⟩ := markFrom_filled_of_size graph next id hsize
      exact ih (h.markFrom hnone hsize) (hfilled.size.trans hsize)
    next hsome =>
      refine ih ⟨fun k hk => ?_, fun n hn => ?_, h.rank⟩ hsize
      · rcases Nat.lt_or_eq_of_le (Nat.le_of_lt_succ hk) with hk | rfl
        · exact h.marked k hk
        · exact hsome
      · obtain ⟨k, hk, hmark⟩ := h.below n hn
        exact ⟨k, Nat.lt_succ_of_lt hk, hmark⟩

theorem lt_size_of_components (hu : graph.components[u]? = some n) : u < graph.size :=
  length_components graph ▸ (List.getElem?_eq_some_iff.mp hu).1

/-- Each number smaller than that of a component belongs to an earlier one. -/
theorem exists_lt_of_components (hu : graph.components[u]? = some n) (hm : m < n) :
    ∃ v < u, graph.components[v]? = some m := by
  -- before the first block nothing is numbered
  have hstart : Ranked 0 0 (Array.replicate graph.size (none : Option Nat)) := by
    refine ⟨fun k hk => absurd hk (Nat.not_lt_zero k), fun n hn => absurd hn (Nat.not_lt_zero n),
      fun k n hk => ?_⟩
    rw [Array.getElem?_replicate] at hk
    split at hk <;> cases hk
  obtain ⟨_, hranked⟩ := markAll_ranked graph.size hstart Array.size_replicate
  rw [← List.range_eq_range'] at hranked
  obtain ⟨n', hn', hmark⟩ := exists_component (lt_size_of_components hu)
  obtain rfl := Option.some.inj (hu.symm.trans hn')
  obtain ⟨v, hv, hmark'⟩ := hranked.rank u n hmark m hm
  obtain ⟨m', hm', hmark''⟩ := exists_component (Nat.lt_trans hv (lt_size_of_components hu))
  obtain rfl : m = m' := by simpa using hmark'.symm.trans hmark''
  exact ⟨v, hv, hm'⟩

theorem Lowest.le (h : graph.Lowest u) (hu : graph.components[u]? = some n)
    (hv : graph.components[v]? = some n) : u ≤ v :=
  h v (joined_of_components_eq (lt_size_of_components hu) (lt_size_of_components hv)
    (hu.trans hv.symm))

theorem lt_of_components_lt (hu : graph.components[u]? = some m)
    (hv : graph.components[v]? = some n) (hlowest : graph.Lowest u) (hmn : m < n) : u < v := by
  obtain ⟨w, hw, hcomponent⟩ := exists_lt_of_components hv hmn
  exact Nat.lt_of_le_of_lt (hlowest.le hu hcomponent) hw

/-- The components are numbered in the order of their lowest blocks. -/
theorem components_lt_iff (hu : graph.components[u]? = some m) (hv : graph.components[v]? = some n)
    (hlowest : graph.Lowest u) (hlowest' : graph.Lowest v) : m < n ↔ u < v := by
  refine ⟨lt_of_components_lt hu hv hlowest, fun huv => ?_⟩
  rcases Nat.lt_trichotomy m n with hmn | rfl | hnm
  · exact hmn
  · exact absurd huv (Nat.not_lt_of_le (hlowest'.le hv hu))
  · exact absurd huv (Nat.not_lt_of_lt (lt_of_components_lt hv hu hlowest' hnm))

/-! ## The parts -/

theorem value_partitionFrom (graph : Graph) (routines : RoutineLabels)
    (components numbers : List Nat) :
    (graph.partitionFrom routines components numbers).value =
      numbers.map fun number =>
        ((graph.restrict (members components number)).withStarts routines).value := by
  induction numbers with
  | nil => rfl
  | cons number numbers ih =>
    rw [partitionFrom, List.map_cons, ← ih]
    rfl

theorem exists_le_of_lt_foldl_max {numbers : List Nat} {count : Nat}
    (h : n < numbers.foldl (fun count number => max count (number + 1)) count) :
    n < count ∨ ∃ number ∈ numbers, n ≤ number := by
  induction numbers generalizing count with
  | nil => exact .inl h
  | cons first numbers ih =>
    rcases ih h with hlt | ⟨number, hmem, hle⟩
    · rcases lt_max_iff.mp hlt with hlt | hlt
      · exact .inl hlt
      · exact .inr ⟨first, List.mem_cons_self, Nat.le_of_lt_succ hlt⟩
    · exact .inr ⟨number, List.mem_cons_of_mem first hmem, hle⟩

/-- There is one part for each component, in the order of their numbers. -/
theorem getElem?_partition_iff {part : Graph} :
    (graph.partition routines).value[n]? = some part ↔
      n ∈ graph.components ∧ part = graph.routine routines n := by
  unfold partition
  rw [value_partitionFrom, List.getElem?_map]
  have hcount : n < graph.components.foldl (fun count number => max count (number + 1)) 0 ↔
      n ∈ graph.components := by
    refine ⟨fun hlt => ?_, lt_foldl_max⟩
    rcases exists_le_of_lt_foldl_max hlt with hlt | ⟨number, hmem, hle⟩
    · exact absurd hlt (Nat.not_lt_zero n)
    · rcases Nat.lt_or_eq_of_le hle with hlt | rfl
      · -- a smaller number belongs to an earlier component
        obtain ⟨u, hu⟩ := List.mem_iff_getElem?.mp hmem
        obtain ⟨v, _, hv⟩ := exists_lt_of_components hu hlt
        exact List.mem_of_getElem? hv
      · exact hmem
  rw [← hcount, Option.map_eq_some_iff]
  constructor
  · rintro ⟨number, hnumber, rfl⟩
    obtain ⟨hlt, rfl⟩ := List.getElem?_eq_some_iff.mp hnumber
    rw [List.length_range] at hlt
    rw [List.getElem_range]
    exact ⟨hlt, rfl⟩
  · rintro ⟨hlt, rfl⟩
    exact ⟨n, List.getElem?_range hlt, rfl⟩

/-- There is a routine for each number that a block has. -/
theorem lt_length_partition_iff :
    n < (graph.partition routines).value.length ↔ n ∈ graph.components := by
  constructor
  · exact fun hlt => (getElem?_partition_iff.1 (List.getElem?_eq_getElem hlt)).1
  · intro hmem
    exact (List.getElem?_eq_some_iff.mp (getElem?_partition_iff.2 ⟨hmem, rfl⟩)).1

theorem pairwise_members (components : List Nat) (number : Nat) :
    (members components number).Pairwise (· < ·) := by
  have hids : (components.zipIdx.map (·.2)).Pairwise (· < ·) := by
    rw [List.zipIdx_map_snd]
    exact List.pairwise_lt_range'
  exact hids.sublist (List.filter_sublist.map _)

theorem pairwise_starts_withStarts (graph : Graph) (routines : RoutineLabels) :
    (graph.withStarts routines).value.starts.Pairwise (· < ·) := by
  have hids : (graph.entries.map (·.1)).Pairwise (· < ·) := by
    unfold entries
    rw [List.map_map]
    show (graph.nodes.toList.zipIdx.map (·.2)).Pairwise (· < ·)
    rw [List.zipIdx_map_snd]
    exact List.pairwise_lt_range'
  unfold withStarts
  dsimp only
  split
  · exact List.pairwise_lt_range
  · exact hids.sublist (List.filter_sublist.map _)

/-- `part` has the blocks `ids` of the graph, which ascend, with their instructions, and those of
their edges that lead to blocks among them, in order. It starts at the blocks without predecessors
and those with routine labels, or anywhere if there are none. -/
structure IsSplit (graph : Graph) (routines : RoutineLabels) (ids : List BlockId) (part : Graph) :
    Prop where
  unit : part.unit = graph.unit
  ascending : ids.Pairwise (· < ·)
  size : part.size = ids.length
  instructions : ∀ (place : Nat) (id : BlockId), ids[place]? = some id →
    ∃ block copy, graph.block? id = some block ∧ part.block? place = some copy ∧
      copy.instructions = block.instructions
  successors : ∀ (place : Nat) (id : BlockId), ids[place]? = some id →
    (part.successors place).map (ids[·]?) = (graph.successors id).map some
  startsAscending : part.starts.Pairwise (· < ·)
  starts : ∀ start, start ∈ part.starts ↔ start < part.size ∧
    (part.Entrance routines start ∨ ∀ other, ¬ part.Entrance routines other)

/-- The graph falls apart into `parts`, one for each of its components, and nothing is lost. -/
structure Splits (graph : Graph) (routines : RoutineLabels) (parts : List Graph) : Prop where
  /-- Every block has a number. -/
  numbered : graph.components.length = graph.size
  joined : ∀ u v, u < graph.size → v < graph.size →
    (graph.components[u]? = graph.components[v]? ↔ graph.Joined u v)
  /-- The numbers are in the order of the lowest blocks. -/
  ordered : ∀ u v m n, graph.Lowest u → graph.Lowest v → graph.components[u]? = some m →
    graph.components[v]? = some n → (m < n ↔ u < v)
  /-- The places of the parts are the numbers of the components. -/
  places : ∀ n, n < parts.length ↔ n ∈ graph.components
  split : ∀ n part, parts[n]? = some part →
    graph.IsSplit routines (members graph.components n) part
  /-- Every block is in one part, and there once. -/
  once : ∀ u < graph.size, ∃! place : Nat × Nat, place.1 < parts.length ∧
    (members graph.components place.1)[place.2]? = some u
  /-- The edges of the graph are those of the parts. -/
  edges : ∀ u v, v ∈ graph.successors u ↔ ∃ n part p q, parts[n]? = some part ∧
    (members graph.components n)[p]? = some u ∧ (members graph.components n)[q]? = some v ∧
      q ∈ part.successors p

theorem successors_withStarts (graph : Graph) (routines : RoutineLabels) (id : BlockId) :
    (graph.withStarts routines).value.successors id = graph.successors id := by
  unfold withStarts
  dsimp only
  split <;> rfl

theorem entrance_withStarts :
    (graph.withStarts routines).value.Entrance routines id ↔ graph.Entrance routines id := by
  unfold Entrance
  rw [block?_withStarts]
  simp only [successors_withStarts]

section Split

variable (hrange : ∀ id, ∀ next ∈ graph.successors id, next < graph.size)
include hrange

/-- A routine is the part of the graph on the blocks with its number. -/
theorem isSplit_routine (routines : RoutineLabels) (n : Nat) :
    graph.IsSplit routines (members graph.components n) (graph.routine routines n) := by
  have hpart := isPart_routine hrange routines n
  refine ⟨?_, pairwise_members _ n, hpart.size, fun place id hid => ?_, fun place id hid => ?_,
    pairwise_starts_withStarts _ routines, fun start => ?_⟩
  · unfold routine withStarts
    dsimp only
    split <;> rfl
  · obtain ⟨block, hblock, hcopy⟩ := hpart.block place id hid
    exact ⟨block, _, hblock, hcopy, rfl⟩
  · -- a successor is found by its place among the blocks
    rw [hpart.successors_eq hid, List.map_map]
    refine List.map_congr_left fun next hnext => ?_
    exact List.getElem?_idxOf (hpart.forward id (List.mem_of_getElem? hid) next hnext)
  · rw [mem_starts_routine, routine, size_withStarts]
    simp only [entrance_withStarts]

/-- No edge is lost: both of its ends are in one routine, and there it is an edge too. -/
theorem exists_edge_of_mem_successors (h : v ∈ graph.successors u) (routines : RoutineLabels) :
    ∃ n part p q, (graph.partition routines).value[n]? = some part ∧
      (members graph.components n)[p]? = some u ∧ (members graph.components n)[q]? = some v ∧
        q ∈ part.successors p := by
  obtain ⟨n, hn, _⟩ := exists_component (lt_size_of_mem_successors h)
  have hpart := isPart_routine hrange routines n
  have hu := mem_members.2 hn
  have hp := List.getElem?_idxOf hu
  have hq := List.getElem?_idxOf (hpart.forward u hu v h)
  exact ⟨n, _, _, _, getElem?_partition_iff.2 ⟨List.mem_of_getElem? hn, rfl⟩, hp, hq,
    (hpart.mem_successors_iff hp hq).2 h⟩

/-- A graph falls apart into its weak components, in the order of their lowest blocks, and its
blocks and edges are all kept. -/
theorem splits_partition (routines : RoutineLabels) :
    graph.Splits routines (graph.partition routines).value where
  numbered := length_components graph
  joined u v := components_eq_iff_joined hrange
  ordered u v m n hu hv hm hn := components_lt_iff hm hn hu hv
  places n := lt_length_partition_iff
  split n part hpart := by
    obtain ⟨_, rfl⟩ := getElem?_partition_iff.1 hpart
    exact isSplit_routine hrange routines n
  once u hu := by
    obtain ⟨n, hn, _⟩ := exists_component hu
    refine ⟨(n, (members graph.components n).idxOf u),
      ⟨lt_length_partition_iff.2 (List.mem_of_getElem? hn),
        List.getElem?_idxOf (mem_members.2 hn)⟩, ?_⟩
    rintro ⟨m, p⟩ ⟨_, hp⟩
    obtain rfl := Option.some.inj ((mem_members.1 (List.mem_of_getElem? hp)).symm.trans hn)
    obtain ⟨hlt, rfl⟩ := List.getElem?_eq_some_iff.mp hp
    rw [(nodup_members _ _).idxOf_getElem p hlt]
  edges u v := by
    refine ⟨fun hedge => exists_edge_of_mem_successors hrange hedge routines, ?_⟩
    rintro ⟨n, part, p, q, hpart, hp, hq, hedge⟩
    obtain ⟨_, rfl⟩ := getElem?_partition_iff.1 hpart
    exact ((isPart_routine hrange routines n).mem_successors_iff hp hq).1 hedge

/-- A routine of a partition starts at its entrances, or anywhere if it has none. -/
theorem mem_starts_of_mem_partition {part : Graph} {start : BlockId}
    (hpart : part ∈ (graph.partition routines).value) : start ∈ part.starts ↔ start < part.size ∧
      (part.Entrance routines start ∨ ∀ other, ¬ part.Entrance routines other) := by
  obtain ⟨number, rfl⟩ := eq_routine_of_mem_partition hpart
  exact (isSplit_routine hrange routines number).starts start

end Split

/-- Two components whose blocks alternate. -/
theorem splits_partition_alternating :
    let graph := ofEdges [[2], [3], [], [1]] []
    (∀ id, ∀ next ∈ graph.successors id, next < graph.size) ∧
      ∃ part, (graph.partition ["f"]).value[1]? = some part ∧
        graph.IsSplit ["f"] [1, 3] part := by
  intro graph
  have hinRange : graph.InRange := inRange_of_lt (by decide) (by decide)
  have hrange := hinRange.successors
  have hsplits := splits_partition hrange ["f"]
  have hmembers : members graph.components 1 = [1, 3] := by decide +kernel
  have hpart := List.getElem?_eq_getElem ((hsplits.places 1).2 (by decide +kernel))
  exact ⟨hrange, _, hpart, hmembers ▸ hsplits.split 1 _ hpart⟩

/-! ## The same entrances -/

section Congruence

variable {routines' : RoutineLabels}

/-- The starts depend on the labels only through the entrances. -/
theorem withStarts_congr (h : ∀ id, graph.Entrance routines id ↔ graph.Entrance routines' id) :
    (graph.withStarts routines).value = (graph.withStarts routines').value := by
  have hfilter :
      (graph.entries.filter fun entry => graph.isEntrance routines entry.1 entry.2.block) =
        graph.entries.filter fun entry => graph.isEntrance routines' entry.1 entry.2.block := by
    refine List.filter_congr fun entry hmem => ?_
    rw [Bool.eq_iff_iff, isEntrance_iff_entrance hmem, isEntrance_iff_entrance hmem, h entry.1]
  unfold withStarts
  dsimp only
  rw [hfilter]

/-- Routine labels count for a partition only by the entrances that they make. -/
theorem partition_congr (hrange : ∀ id, ∀ next ∈ graph.successors id, next < graph.size)
    (h : ∀ id, graph.Entrance routines id ↔ graph.Entrance routines' id) :
    (graph.partition routines).value = (graph.partition routines').value := by
  unfold partition
  rw [value_partitionFrom, value_partitionFrom]
  refine List.map_congr_left fun number _ => withStarts_congr fun place => ?_
  have hpart := isPart_restrict hrange number
  -- an entrance of a part is one of the graph, for either set of labels
  constructor
  · intro hplace
    obtain ⟨id, hid⟩ := hpart.exists_id hplace.lt_size
    rwa [hpart.entrance_iff hid, ← h id, ← hpart.entrance_iff hid]
  · intro hplace
    obtain ⟨id, hid⟩ := hpart.exists_id hplace.lt_size
    rwa [hpart.entrance_iff hid, h id, ← hpart.entrance_iff hid]

end Congruence

end RamOverlay.Graph
