import Mathlib.Data.Finset.Card
import Mathlib.Data.Finset.Range
import RamOverlay.Flow.Component

/-!
# Components are closed under edges

* **`Filled`**: marking gives its number to blocks without one, forgets no number, and does not stop
  at a block that it marks: all neighbours of that have a number afterwards.
* **`markFrom_filled`**: with fuel for all blocks without a number, marking from a block fills its
  surroundings. The induction is on the fuel, and inside it on the neighbours.
* **`components_eq_of_mem_successors`**: an edge joins two blocks of one component.
-/

namespace RamOverlay.Graph

variable {graph : Graph} {number : Nat} {marks marks' marks'' : Marks} {id k : BlockId}

/-! ## Neighbours -/

theorem lt_size_of_mem_successors {successor : BlockId} (h : successor ∈ graph.successors id) :
    id < graph.size := by
  unfold successors at h
  split at h
  next node hnode => exact (Array.getElem?_eq_some_iff.mp hnode).1
  next => cases h

/-- An edge is seen from both of its ends. -/
theorem mem_predecessors {predecessor : BlockId} :
    predecessor ∈ graph.predecessors id ↔ id ∈ graph.successors predecessor := by
  unfold predecessors
  rw [List.mem_flatMap]
  constructor
  · rintro ⟨other, _, hmem⟩
    obtain ⟨successor, hsuccessor, rfl⟩ := List.mem_map.mp hmem
    obtain ⟨hmem, heq⟩ := List.mem_filter.mp hsuccessor
    exact beq_iff_eq.mp heq ▸ hmem
  · intro h
    refine ⟨predecessor, List.mem_range.mpr (lt_size_of_mem_successors h), List.mem_map.mpr ?_⟩
    exact ⟨id, List.mem_filter.mpr ⟨h, beq_self_eq_true id⟩, rfl⟩

theorem mem_neighbours_comm {other : BlockId} :
    other ∈ graph.neighbours id ↔ id ∈ graph.neighbours other := by
  unfold neighbours
  rw [List.mem_append, List.mem_append, mem_predecessors, mem_predecessors, or_comm]

/-! ## Marking from one block -/

/-- The blocks without a number. -/
def unmarked (marks : Marks) : Finset BlockId :=
  (Finset.range marks.size).filter fun id => marks[id]? = some none

theorem mem_unmarked : id ∈ unmarked marks ↔ marks[id]? = some none := by
  unfold unmarked
  rw [Finset.mem_filter, Finset.mem_range, and_iff_right_iff_imp]
  exact fun h => (Array.getElem?_eq_some_iff.mp h).1

theorem exists_number (hlt : k < marks.size) (hk : marks[k]? ≠ some none) :
    ∃ n, marks[k]? = some (some n) := by
  cases hmark : marks[k] with
  | none => exact absurd (Array.getElem?_eq_some_iff.mpr ⟨hlt, hmark⟩) hk
  | some n => exact ⟨n, Array.getElem?_eq_some_iff.mpr ⟨hlt, hmark⟩⟩

/-- `marks'` has all numbers of `marks`. -/
structure Kept (marks marks' : Marks) : Prop where
  size : marks'.size = marks.size
  kept : ∀ (k : BlockId) (n : Nat), marks[k]? = some (some n) → marks'[k]? = some (some n)

/-- `marks'` has all numbers of `marks`, and further blocks with `number`, whose neighbours all have
a number. -/
structure Filled (graph : Graph) (number : Nat) (marks marks' : Marks) : Prop
    extends Kept marks marks' where
  new : ∀ (k : BlockId) (n : Nat), marks[k]? = some none → marks'[k]? = some (some n) →
    n = number ∧ ∀ other ∈ graph.neighbours k, marks'[other]? ≠ some none

theorem Kept.refl (marks : Marks) : Kept marks marks := ⟨rfl, fun _ _ h => h⟩

theorem Kept.trans (h : Kept marks marks') (h' : Kept marks' marks'') : Kept marks marks'' :=
  ⟨h'.size.trans h.size, fun k n hk => h'.kept k n (h.kept k n hk)⟩

/-- What is marked stays so. -/
theorem Kept.marked (h : Kept marks marks') (hk : marks[k]? ≠ some none) :
    marks'[k]? ≠ some none := by
  intro hnone
  obtain ⟨n, hn⟩ := exists_number (h.size ▸ (Array.getElem?_eq_some_iff.mp hnone).1) hk
  have hsome := h.kept k n hn
  rw [hnone] at hsome
  cases hsome

/-- Marking leaves no new block without a number. -/
theorem Kept.unmarked_subset (h : Kept marks marks') : unmarked marks' ⊆ unmarked marks := by
  intro k hk
  rw [mem_unmarked] at hk ⊢
  by_contra hne
  exact h.marked hne hk

theorem Filled.refl (graph : Graph) (number : Nat) (marks : Marks) :
    Filled graph number marks marks where
  toKept := .refl marks
  new k n hnone hsome := by rw [hnone] at hsome; cases hsome

theorem Filled.trans (h : Filled graph number marks marks')
    (h' : Filled graph number marks' marks'') : Filled graph number marks marks'' where
  toKept := h.toKept.trans h'.toKept
  new k n hnone hsome := by
    by_cases hmiddle : marks'[k]? = some none
    · exact h'.new k n hmiddle hsome
    · have hlt : k < marks'.size := h'.size ▸ (Array.getElem?_eq_some_iff.mp hsome).1
      obtain ⟨n', hn'⟩ := exists_number hlt hmiddle
      obtain ⟨rfl, hall⟩ := h.new k n' hnone hn'
      have hfinal := h'.kept k n' hn'
      rw [hsome] at hfinal
      cases hfinal
      exact ⟨rfl, fun other hother => h'.marked (hall other hother)⟩

/-- One neighbour after the other. -/
theorem foldl_markFrom_filled {fuel : Nat}
    (ih : ∀ id marks, (unmarked marks).card ≤ fuel →
      Filled graph number marks (graph.markFrom number fuel id marks) ∧
        (graph.markFrom number fuel id marks)[id]? ≠ some none)
    (others : List BlockId) (hfuel : (unmarked marks).card ≤ fuel) :
    Filled graph number marks
        (others.foldl (fun marks other => graph.markFrom number fuel other marks) marks) ∧
      ∀ other ∈ others, (others.foldl (fun marks other => graph.markFrom number fuel other marks)
        marks)[other]? ≠ some none := by
  induction others generalizing marks with
  | nil => exact ⟨.refl graph number marks, fun _ h => absurd h List.not_mem_nil⟩
  | cons first others ih' =>
    obtain ⟨hfilled, hfirst⟩ := ih first marks hfuel
    -- the first search leaves no more blocks unmarked, so the fuel lasts for the rest
    obtain ⟨hrest, hothers⟩ :=
      ih' (Nat.le_trans (Finset.card_le_card hfilled.unmarked_subset) hfuel)
    rw [List.foldl_cons]
    refine ⟨hfilled.trans hrest, fun other hother => ?_⟩
    rcases List.mem_cons.mp hother with rfl | hother
    · exact hrest.marked hfirst
    · exact hothers other hother

section Mark

variable (hnone : marks[id]? = some none)
include hnone

theorem getElem?_mark (number k : Nat) : (marks.setIfInBounds id (some number))[k]? =
    if id = k then some (some number) else marks[k]? := by
  rw [Array.getElem?_setIfInBounds, if_pos (Array.getElem?_eq_some_iff.mp hnone).1]

theorem kept_mark (number : Nat) : Kept marks (marks.setIfInBounds id (some number)) := by
  refine ⟨Array.size_setIfInBounds, fun k n hk => ?_⟩
  rw [getElem?_mark hnone, if_neg]
  · exact hk
  · rintro rfl
    rw [hnone] at hk
    cases hk

/-- A block that gets its number is one less to mark, which is what the fuel counts. -/
theorem card_unmarked_mark_lt (number : Nat) :
    (unmarked (marks.setIfInBounds id (some number))).card < (unmarked marks).card := by
  refine Finset.card_lt_card ?_
  refine (Finset.ssubset_iff_of_subset (kept_mark hnone number).unmarked_subset).mpr ⟨id, ?_, ?_⟩
  · exact mem_unmarked.mpr hnone
  · rw [mem_unmarked, getElem?_mark hnone, if_pos rfl]
    simp

end Mark

/-- The induction is on the fuel: each block that is marked leaves fewer without a number. -/
theorem markFrom_filled (graph : Graph) (number : Nat) (id : BlockId) {fuel : Nat}
    (hfuel : (unmarked marks).card ≤ fuel) :
    Filled graph number marks (graph.markFrom number fuel id marks) ∧
      (graph.markFrom number fuel id marks)[id]? ≠ some none := by
  induction fuel generalizing id marks with
  | zero =>
    rw [markFrom]
    refine ⟨.refl graph number marks, fun hnone => ?_⟩
    rw [← mem_unmarked, Finset.card_eq_zero.mp (Nat.le_zero.mp hfuel)] at hnone
    exact absurd hnone (Finset.notMem_empty id)
  | succ fuel ih =>
    rw [markFrom]
    split
    next hnone =>
      -- the mark on `id` leaves one block less, so there is fuel for the neighbours
      have hcard : (unmarked (marks.setIfInBounds id (some number))).card ≤ fuel :=
        Nat.le_of_lt_succ (Nat.lt_of_lt_of_le (card_unmarked_mark_lt hnone number) hfuel)
      obtain ⟨hfilled, hall⟩ :=
        foldl_markFrom_filled (fun id _ => ih id) (graph.neighbours id) hcard
      have hid := hfilled.kept id number (by rw [getElem?_mark hnone, if_pos rfl])
      refine ⟨⟨(kept_mark hnone number).trans hfilled.toKept, fun k n hk hsome => ?_⟩, ?_⟩
      · by_cases heq : id = k
        · subst heq
          rw [hid] at hsome
          cases hsome
          exact ⟨rfl, hall⟩
        · -- another block got its number from a neighbour
          exact hfilled.new k n (by rw [getElem?_mark hnone, if_neg heq]; exact hk) hsome
      · rw [hid]
        simp
    next hnone => exact ⟨.refl graph number marks, hnone⟩

/-- The number of blocks is fuel enough. -/
theorem markFrom_filled_of_size (graph : Graph) (number : Nat) (id : BlockId)
    (hsize : marks.size = graph.size) :
    Filled graph number marks (graph.markFrom number graph.size id marks) ∧
      (graph.markFrom number graph.size id marks)[id]? ≠ some none := by
  refine markFrom_filled graph number id (Nat.le_trans (Finset.card_filter_le _ _) ?_)
  rw [Finset.card_range, hsize]

/-! ## Marking all blocks -/

/-- The numbered blocks have the numbers of their neighbours. -/
def Uniform (graph : Graph) (marks : Marks) : Prop :=
  ∀ (k : BlockId) (n : Nat), marks[k]? = some (some n) →
    ∀ other ∈ graph.neighbours k, other < marks.size →
    marks[other]? = some (some n)

/-- A block that is filled has no neighbour from before, since that would have filled it then. -/
theorem Uniform.of_filled (h : Uniform graph marks) (hfilled : Filled graph number marks marks') :
    Uniform graph marks' := by
  intro k n hk other hother hlt
  rw [hfilled.size] at hlt
  have hklt : k < marks.size := hfilled.size ▸ (Array.getElem?_eq_some_iff.mp hk).1
  by_cases hold : marks[k]? = some none
  · obtain ⟨rfl, hall⟩ := hfilled.new k n hold hk
    -- an old neighbour would have had the same number as `k` before
    have hnew : marks[other]? = some none := by
      by_contra hne
      obtain ⟨n', hn'⟩ := exists_number hlt hne
      have hback := h other n' hn' k (mem_neighbours_comm.1 hother) hklt
      rw [hold] at hback
      cases hback
    obtain ⟨n', hn'⟩ := exists_number (hfilled.size ▸ hlt) (hall other hother)
    rw [hn', (hfilled.new other n' hnew hn').1]
  · -- an old block and its old neighbour keep the number that they had
    obtain ⟨n', hn'⟩ := exists_number hklt hold
    have hsame := hfilled.kept k n' hn'
    rw [hk] at hsame
    cases hsame
    exact hfilled.kept other n (h k n hn' other hother hlt)

/-- The whole pass gives every block a number, and neighbours the same one. -/
theorem markAll_uniform (next : Nat) (ids : List BlockId) (hsize : marks.size = graph.size)
    (h : Uniform graph marks) :
    Kept marks (graph.markAll next marks ids) ∧ Uniform graph (graph.markAll next marks ids) ∧
      ∀ id ∈ ids, (graph.markAll next marks ids)[id]? ≠ some none := by
  induction ids generalizing next marks with
  | nil => exact ⟨.refl marks, h, fun _ h => absurd h List.not_mem_nil⟩
  | cons id ids ih =>
    rw [markAll]
    split
    -- a block without a number begins a search; the others keep what they have
    next hnone =>
      obtain ⟨hfilled, hid⟩ := markFrom_filled_of_size graph next id hsize
      obtain ⟨hkept, huniform, hall⟩ :=
        ih (next + 1) (hfilled.size.trans hsize) (h.of_filled hfilled)
      refine ⟨hfilled.toKept.trans hkept, huniform, fun other hother => ?_⟩
      rcases List.mem_cons.mp hother with rfl | hother
      · exact hkept.marked hid
      · exact hall other hother
    next hsome =>
      obtain ⟨hkept, huniform, hall⟩ := ih next hsize h
      refine ⟨hkept, huniform, fun other hother => ?_⟩
      rcases List.mem_cons.mp hother with rfl | hother
      · exact hkept.marked hsome
      · exact hall other hother

theorem uniform_start (graph : Graph) : Uniform graph (Array.replicate graph.size none) := by
  intro k n hk
  rw [Array.getElem?_replicate] at hk
  split at hk <;> cases hk

theorem length_components (graph : Graph) : graph.components.length = graph.size := by
  obtain ⟨hkept, _⟩ := markAll_uniform 0 graph.ids Array.size_replicate
    (uniform_start graph)
  unfold components
  rw [List.length_map, Array.length_toList, hkept.size, Array.size_replicate]

/-- An edge joins two blocks of one component. -/
theorem components_eq_of_mem_successors {successor : BlockId}
    (h : successor ∈ graph.successors id) (hlt : successor < graph.size) :
    graph.components[successor]? = graph.components[id]? := by
  obtain ⟨hkept, huniform, hall⟩ := markAll_uniform 0 graph.ids Array.size_replicate
    (uniform_start graph)
  have hid := lt_size_of_mem_successors h
  have hsize := hkept.size.trans Array.size_replicate
  obtain ⟨n, hn⟩ :=
    exists_number (Nat.lt_of_lt_of_eq hid hsize.symm) (hall id (List.mem_range.mpr hid))
  have hsame := huniform id n hn successor (List.mem_append_left _ h)
    (Nat.lt_of_lt_of_eq hlt hsize.symm)
  unfold components
  rw [List.getElem?_map, List.getElem?_map, Array.getElem?_toList, Array.getElem?_toList, hn, hsame]

end RamOverlay.Graph
