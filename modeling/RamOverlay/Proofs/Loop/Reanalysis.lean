import RamOverlay.Proofs.Code.RoutineEdges
import RamOverlay.Proofs.Loop.HeaderChain

/-!
# Loop analysis looks at blocks and starts only

What is known about the blocks of a graph, their counts and earlier headers, does not change what an
analysis finds.

* **`Alike`**: graphs that differ at most in what is known about their blocks.
* **`Alike.nesting`**: the searches are the same in both. The induction is on the fuel, and inside
  it on the edges.
* **`Alike.loopHeadersOf`**: so a graph that was analysed tells what a new analysis would.
-/

namespace RamOverlay.Graph

variable {graph other third : Graph} {id : BlockId}

/-- The graphs have the same blocks and starts. -/
structure Alike (graph other : Graph) : Prop where
  unit : other.unit = graph.unit
  starts : other.starts = graph.starts
  block : ∀ id, other.block? id = graph.block? id

namespace Alike

theorem refl (graph : Graph) : graph.Alike graph := ⟨rfl, rfl, fun _ => rfl⟩

theorem symm (h : graph.Alike other) : other.Alike graph :=
  ⟨h.unit.symm, h.starts.symm, fun id => (h.block id).symm⟩

theorem trans (h : graph.Alike other) (h' : other.Alike third) : graph.Alike third :=
  ⟨h'.unit.trans h.unit, h'.starts.trans h.starts, fun id => (h'.block id).trans (h.block id)⟩

theorem size (h : graph.Alike other) : other.size = graph.size := by
  have hlt : ∀ id, id < other.size ↔ id < graph.size := fun id => by
    rw [← isSome_block?, ← isSome_block?, h.block id]
  exact Nat.le_antisymm (Nat.le_of_not_lt fun hlt' => Nat.lt_irrefl _ ((hlt _).1 hlt'))
    (Nat.le_of_not_lt fun hlt' => Nat.lt_irrefl _ ((hlt _).2 hlt'))

/-- Graphs that are alike have the same edges. -/
theorem successors (h : graph.Alike other) (id : BlockId) :
    other.successors id = graph.successors id := by
  cases hblock : graph.block? id with
  | none =>
    have hsize : graph.size ≤ id := Nat.le_of_not_lt fun hlt => by
      rw [← isSome_block?, hblock] at hlt
      cases hlt
    rw [successors_of_size_le hsize, successors_of_size_le (h.size ▸ hsize)]
  | some block =>
    rw [successors_of_block? hblock, successors_of_block? ((h.block id).trans hblock)]

theorem lineOf (h : graph.Alike other) (id : BlockId) : other.lineOf id = graph.lineOf id := by
  unfold Graph.lineOf
  rw [h.block id]

/-! ## The same searches -/

theorem tagHeader (h : graph.Alike other) : other.tagHeader = graph.tagHeader := by
  funext path id header search
  unfold Graph.tagHeader
  rw [h.size, h.unit, h.lineOf]

theorem meet (h : graph.Alike other) : other.meet = graph.meet := by
  funext path id successor search
  unfold Graph.meet
  rw [h.tagHeader, h.unit, h.lineOf]

/-- The search reads nothing but the edges, so it is the same for graphs that are alike. -/
theorem followEdges (h : graph.Alike other) (visit : BlockId → Search → Traced Search) (path : Path)
    (id : BlockId) (edges : List BlockId) (search : Search) :
    other.followEdges visit path id edges search =
      graph.followEdges visit path id edges search := by
  induction edges generalizing search with
  | nil => rfl
  | cons successor edges ih =>
    unfold Graph.followEdges
    simp only [h.meet, h.tagHeader, ih]

theorem searchFrom (h : graph.Alike other) (fuel : Nat) (path : Path) (id : BlockId)
    (search : Search) : other.searchFrom fuel path id search =
      graph.searchFrom fuel path id search := by
  induction fuel generalizing path id search with
  | zero => rfl
  | succ fuel ih =>
    unfold Graph.searchFrom
    have hvisit : other.searchFrom fuel (id :: path) = graph.searchFrom fuel (id :: path) := by
      funext successor search
      exact ih (id :: path) successor search
    rw [hvisit, h.successors, h.followEdges]

theorem searchAll (h : graph.Alike other) (links : Array LoopLinks) (starts : List BlockId) :
    other.searchAll links starts = graph.searchAll links starts := by
  induction starts generalizing links with
  | nil => rfl
  | cons start starts ih =>
    unfold Graph.searchAll
    simp only [h.size, h.searchFrom, ih]

theorem nesting (h : graph.Alike other) : other.nesting = graph.nesting := by
  unfold Graph.nesting Graph.linkSelfLoops
  simp only [h.size, h.starts, h.searchAll, h.successors]

end Alike

/-! ## The same headers -/

theorem linksOf_withNesting (graph : Graph) (links : Array LoopLinks) (id : BlockId) :
    (graph.withNesting links).linksOf id = if id < graph.size then links.getD id {} else {} := by
  unfold withNesting mapNodes linksOf
  rw [Array.getElem?_mapIdx]
  by_cases hid : id < graph.size
  · obtain ⟨node, hnode⟩ := graph.exists_node hid
    rw [hnode, if_pos hid]
    rfl
  · rw [Array.getElem?_eq_none (Nat.le_of_not_lt hid), if_neg hid]
    rfl

theorem block?_withNesting (graph : Graph) (links : Array LoopLinks) (id : BlockId) :
    (graph.withNesting links).block? id = graph.block? id := by
  unfold withNesting mapNodes block?
  rw [Array.getElem?_mapIdx]
  cases graph.nodes[id]? <;> rfl

theorem alike_analyzeLoops (graph : Graph) : graph.Alike graph.analyzeLoops.value :=
  ⟨rfl, rfl, block?_withNesting graph _⟩

/-- What is known about the loops of the graph is what an analysis finds. -/
structure Analyzed (graph : Graph) : Prop where
  links : ∀ id, graph.linksOf id = graph.analyzeLoops.value.linksOf id
  header : ∀ id, graph.isLoopHeader id = graph.analyzeLoops.value.isLoopHeader id

/-- The loops of graphs that are alike are the same. -/
theorem Alike.linksOf_analyzeLoops (h : graph.Alike other) (id : BlockId) :
    other.analyzeLoops.value.linksOf id = graph.analyzeLoops.value.linksOf id := by
  show (other.withNesting other.nesting.value).linksOf id =
    (graph.withNesting graph.nesting.value).linksOf id
  rw [linksOf_withNesting, linksOf_withNesting, h.nesting, h.size]

theorem Alike.isLoopHeader_analyzeLoops (h : graph.Alike other) (id : BlockId) :
    other.analyzeLoops.value.isLoopHeader id = graph.analyzeLoops.value.isLoopHeader id := by
  show (other.withNesting other.nesting.value).isLoopHeader id =
    (graph.withNesting graph.nesting.value).isLoopHeader id
  rw [isLoopHeader_withNesting, isLoopHeader_withNesting, h.nesting, h.size]

theorem analyzed_analyzeLoops (graph : Graph) : graph.analyzeLoops.value.Analyzed :=
  ⟨fun id => ((alike_analyzeLoops graph).linksOf_analyzeLoops id).symm,
    fun id => ((alike_analyzeLoops graph).isLoopHeader_analyzeLoops id).symm⟩

/-- A chain depends on the links only. -/
theorem chainFrom_congr (hlinks : ∀ id, other.linksOf id = graph.linksOf id) (fuel : Nat)
    (id : BlockId) : other.chainFrom fuel id = graph.chainFrom fuel id := by
  induction fuel generalizing id with
  | zero =>
    unfold chainFrom
    rw [hlinks]
  | succ fuel ih =>
    unfold chainFrom outerHeader?
    simp only [hlinks, ih]

/-- The headers around a block, as an analysis of the graph tells them. -/
theorem Alike.loopHeadersOf (h : graph.Alike other) (hanalyzed : other.Analyzed) (id : BlockId) :
    (other.loopHeadersOf id).value = (graph.analyzeLoops.value.loopHeadersOf id).value := by
  have hlinks : ∀ id, other.linksOf id = graph.analyzeLoops.value.linksOf id := fun id =>
    (hanalyzed.links id).trans (h.linksOf_analyzeLoops id)
  have hheader := (hanalyzed.header id).trans (h.isLoopHeader_analyzeLoops id)
  have hsize : other.size = graph.analyzeLoops.value.size :=
    h.size.trans (alike_analyzeLoops graph).size.symm
  unfold Graph.loopHeadersOf headerChain
  simp only [Traced.value_bind, Traced.value_pure, hheader, hsize, chainFrom_congr hlinks]

end RamOverlay.Graph
