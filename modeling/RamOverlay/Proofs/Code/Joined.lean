import Mathlib.Logic.Relation
import RamOverlay.Proofs.Code.Components

/-!
# Components are the joined blocks

Two blocks have the same component number if and only if edges join them, whatever their direction.

* **`Joined`**: the weak connection of blocks.
* **`markFrom_joined`**: what marking from a block numbers is joined to it. The induction is on the
  fuel, and inside it on the neighbours.
* **`Numbered`**: the numbers given so far are below the next one, and tell joined blocks.
* **`components_eq_iff_joined`**: so the numbers of the components do.
-/

namespace RamOverlay.Graph

variable {graph : Graph} {number : Nat} {marks : Marks} {u v : BlockId}

/-- Edges lead from one block to the other, some of them maybe against their direction. -/
def Joined (graph : Graph) : BlockId → BlockId → Prop :=
  Relation.EqvGen fun u v => v ∈ graph.successors u

theorem joined_of_mem_successors (h : v ∈ graph.successors u) : graph.Joined u v := .rel u v h

theorem joined_of_mem_neighbours (h : v ∈ graph.neighbours u) : graph.Joined u v := by
  rcases List.mem_append.mp h with h | h
  · exact joined_of_mem_successors h
  · exact .symm v u (joined_of_mem_successors (mem_predecessors.1 h))

/-! ## Marking from one block -/

/-- One neighbour after the other. -/
theorem foldl_markFrom_joined {fuel : Nat}
    (ih : ∀ (id : BlockId) (marks : Marks) (k : BlockId) (n : Nat),
      (graph.markFrom number fuel id marks)[k]? = some (some n) →
        marks[k]? = some (some n) ∨ n = number ∧ graph.Joined id k)
    (others : List BlockId) {k : BlockId} {n : Nat}
    (h : (others.foldl (fun marks other => graph.markFrom number fuel other marks) marks)[k]? =
      some (some n)) :
    marks[k]? = some (some n) ∨ ∃ other ∈ others, n = number ∧ graph.Joined other k := by
  induction others generalizing marks with
  | nil => exact .inl h
  | cons first others ih' =>
    -- the number was there before, or the first neighbour gave it, or a later one
    rcases ih' h with hfirst | ⟨other, hother, hjoined⟩
    · rcases ih first marks k n hfirst with hold | hjoined
      · exact .inl hold
      · exact .inr ⟨first, List.mem_cons_self, hjoined⟩
    · exact .inr ⟨other, List.mem_cons_of_mem first hother, hjoined⟩

/-- Marking from a block numbers only blocks that are joined to it. -/
theorem markFrom_joined (graph : Graph) (number fuel : Nat) (id : BlockId) (marks : Marks)
    (k : BlockId) (n : Nat) (h : (graph.markFrom number fuel id marks)[k]? = some (some n)) :
    marks[k]? = some (some n) ∨ n = number ∧ graph.Joined id k := by
  induction fuel generalizing id marks k n with
  | zero => exact .inl h
  | succ fuel ih =>
    rw [markFrom] at h
    split at h
    next hnone =>
      -- the number is that of the block itself, an old one, or one from a neighbour
      rcases foldl_markFrom_joined ih _ h with hset | ⟨other, hother, rfl, hjoined⟩
      · rw [Array.getElem?_setIfInBounds, if_pos (Array.getElem?_eq_some_iff.mp hnone).1] at hset
        split at hset
        next heq =>
          obtain rfl : number = n := by simpa using hset
          exact .inr ⟨rfl, heq ▸ .refl id⟩
        next => exact .inl hset
      · exact .inr ⟨rfl, (joined_of_mem_neighbours hother).trans id other k hjoined⟩
    next => exact .inl h

/-! ## Marking all blocks -/

/-- The numbers that were given are below `next`, and two blocks with the same number are joined. -/
structure Numbered (graph : Graph) (next : Nat) (marks : Marks) : Prop where
  below : ∀ (k : BlockId) (n : Nat), marks[k]? = some (some n) → n < next
  joined : ∀ (k k' : BlockId) (n : Nat), marks[k]? = some (some n) →
    marks[k']? = some (some n) → graph.Joined k k'

/-- The component of a block without a number gets a number of its own. -/
theorem Numbered.markFrom {next : Nat} (h : Numbered graph next marks) (fuel : Nat)
    (id : BlockId) : Numbered graph (next + 1) (graph.markFrom next fuel id marks) where
  below k n hk := by
    rcases markFrom_joined graph next fuel id marks k n hk with hold | ⟨rfl, _⟩
    · exact Nat.lt_succ_of_lt (h.below k n hold)
    · exact Nat.lt_succ_self n
  joined k k' n hk hk' := by
    rcases markFrom_joined graph next fuel id marks k n hk with hold | ⟨rfl, hjoined⟩
    · rcases markFrom_joined graph next fuel id marks k' n hk' with hold' | ⟨rfl, _⟩
      · exact h.joined k k' n hold hold'
      · exact absurd (h.below k n hold) (Nat.lt_irrefl n)
    · rcases markFrom_joined graph n fuel id marks k' n hk' with hold' | ⟨_, hjoined'⟩
      · -- an old block cannot have the new number
        exact absurd (h.below k' n hold') (Nat.lt_irrefl n)
      · exact (hjoined.symm id k).trans k id k' hjoined'

/-- Blocks with one number are joined, since each number is given in a single search. -/
theorem markAll_joined (next : Nat) (ids : List BlockId) (h : Numbered graph next marks)
    {n : Nat} (hu : (graph.markAll next marks ids)[u]? = some (some n))
    (hv : (graph.markAll next marks ids)[v]? = some (some n)) : graph.Joined u v := by
  induction ids generalizing next marks with
  | nil => exact h.joined u v n hu hv
  | cons id ids ih =>
    rw [markAll] at hu hv
    split at hu
    -- only a block without a number takes up the next one
    next hnone =>
      rw [if_pos hnone] at hv
      exact ih (next + 1) (h.markFrom graph.size id) hu hv
    next hsome =>
      rw [if_neg hsome] at hv
      exact ih next h hu hv

theorem numbered_start (graph : Graph) : Numbered graph 0 (Array.replicate graph.size none) where
  below k n hk := by
    rw [Array.getElem?_replicate] at hk
    split at hk <;> cases hk
  joined k k' n hk := by
    rw [Array.getElem?_replicate] at hk
    split at hk <;> cases hk

/-- The number of the component of a block is the one that it was marked with. -/
theorem exists_component (hu : u < graph.size) :
    ∃ n, graph.components[u]? = some n ∧
      (graph.markAll 0 (Array.replicate graph.size none) graph.ids)[u]? = some (some n) := by
  obtain ⟨hkept, _, hall⟩ := markAll_uniform 0 graph.ids Array.size_replicate (uniform_start graph)
  have hlt : u < (graph.markAll 0 (Array.replicate graph.size none) graph.ids).size := by
    rwa [hkept.size, Array.size_replicate]
  obtain ⟨n, hn⟩ := exists_number hlt (hall u (List.mem_range.mpr hu))
  refine ⟨n, ?_, hn⟩
  unfold components
  rw [List.getElem?_map, Array.getElem?_toList, hn]
  rfl

/-- Blocks with the same component number are joined. -/
theorem joined_of_components_eq (hu : u < graph.size) (hv : v < graph.size)
    (h : graph.components[u]? = graph.components[v]?) : graph.Joined u v := by
  obtain ⟨n, hn, hmark⟩ := exists_component hu
  obtain ⟨n', hn', hmark'⟩ := exists_component hv
  rw [hn, hn'] at h
  obtain rfl := Option.some.inj h
  exact markAll_joined 0 graph.ids (numbered_start graph) hmark hmark'

/-- Joined blocks have the same component number. -/
theorem components_eq_of_joined (hrange : ∀ id, ∀ next ∈ graph.successors id, next < graph.size)
    (h : graph.Joined u v) : graph.components[u]? = graph.components[v]? := by
  induction h with
  | rel u v hedge => exact (components_eq_of_mem_successors hedge (hrange u v hedge)).symm
  | refl u => rfl
  | symm u v _ ih => exact ih.symm
  | trans u v w _ _ ih ih' => exact ih.trans ih'

/-- The numbers of the components are equal exactly for blocks that are joined. -/
theorem components_eq_iff_joined
    (hrange : ∀ id, ∀ next ∈ graph.successors id, next < graph.size) (hu : u < graph.size)
    (hv : v < graph.size) :
    graph.components[u]? = graph.components[v]? ↔ graph.Joined u v :=
  ⟨joined_of_components_eq hu hv, components_eq_of_joined hrange⟩

end RamOverlay.Graph
