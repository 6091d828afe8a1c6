import Mathlib.Data.List.Nodup
import RamOverlay.Flow.Nesting

/-!
# Routes through a graph

What a graph is seen as by the theory of loops: the routes along its edges, the blocks that lie on
all routes from the starts, and the blocks that lie on a cycle together.

* **`Route`**: going from one block to another along edges, with the blocks on the way.
* **`CommonCycle`**: two blocks lie on one closed route. For two different blocks this says that
  each can be reached from the other (`commonCycle_of_reaches`).
* **`Dominates`**: a block lies on every route from a start to another block.
* **`Encloses`**: a block heads a natural loop around another block. The blocks around one block
  are nested: `Encloses.trans` and `Encloses.nested`.
-/

namespace RamOverlay.Graph

variable {graph : Graph}

/-- Every edge and every start leads to a block of the graph. -/
structure InRange (graph : Graph) : Prop where
  successors : ∀ id, ∀ next ∈ graph.successors id, next < graph.size
  starts : ∀ start ∈ graph.starts, start < graph.size

theorem successors_of_size_le {id : BlockId} (h : graph.size ≤ id) : graph.successors id = [] := by
  unfold successors
  rw [Array.getElem?_eq_none h]

theorem exists_node {id : BlockId} (h : id < graph.size) :
    ∃ node, graph.nodes[id]? = some node := ⟨_, Array.getElem?_eq_getElem h⟩

theorem inRange_of_lt (hsuccessors : ∀ id < graph.size, ∀ next ∈ graph.successors id,
    next < graph.size) (hstarts : ∀ start ∈ graph.starts, start < graph.size) : graph.InRange where
  successors id next hnext := by
    by_cases hid : id < graph.size
    · exact hsuccessors id hid next hnext
    · simp [successors_of_size_le (Nat.le_of_not_lt hid)] at hnext
  starts := hstarts

/-- A graph with the given edges. -/
def ofEdges (edges : List (List BlockId)) (starts : List BlockId) : Graph :=
  { ofBlocks "" (edges.map fun successors => { first := { address := 0, line := 0 }, successors })
    with starts }

/-! ## Routes -/

/-- Control can go from `u` to `v` along edges; `blocks` are the blocks on the way, the two ends
included. -/
inductive Route (graph : Graph) : BlockId → List BlockId → BlockId → Prop where
  | refl (u : BlockId) : Route graph u [u] u
  | step {u w v : BlockId} {blocks : List BlockId} (hedge : w ∈ graph.successors u)
      (hrest : Route graph w blocks v) : Route graph u (u :: blocks) v

/-- Control can go from `u` to `v`. -/
def Reaches (graph : Graph) (u v : BlockId) : Prop := ∃ blocks, graph.Route u blocks v

theorem Route.head_mem {u v : BlockId} {p : List BlockId} (h : graph.Route u p v) : u ∈ p := by
  cases h <;> simp

theorem Route.last_mem {u v : BlockId} {p : List BlockId} (h : graph.Route u p v) : v ∈ p := by
  induction h with
  | refl u => simp
  | step _ _ ih => exact List.mem_cons_of_mem _ ih

/-- Routes compose; the blocks on the way are those of the two parts. -/
theorem Route.trans {u v w : BlockId} {p q : List BlockId} (hp : graph.Route u p v)
    (hq : graph.Route v q w) : ∃ r, graph.Route u r w ∧ ∀ x, x ∈ r ↔ x ∈ p ∨ x ∈ q := by
  induction hp with
  | refl u =>
    refine ⟨q, hq, fun x => ⟨Or.inr, ?_⟩⟩
    rintro (hx | hx)
    · rw [List.mem_singleton.mp hx]
      exact hq.head_mem
    · exact hx
  | step hedge _ ih =>
    obtain ⟨r, hr, hmem⟩ := ih hq
    refine ⟨_, .step hedge hr, fun x => ?_⟩
    simp only [List.mem_cons, hmem, or_assoc]

/-- A block on a route cuts it in two. -/
theorem Route.split {u v x : BlockId} {p q : List BlockId} (h : graph.Route u (p ++ x :: q) v) :
    graph.Route u (p ++ [x]) x ∧ graph.Route x (x :: q) v := by
  induction p generalizing u with
  | nil =>
    -- a route starts with its first block
    have hux : u = x := by
      cases h <;> rfl
    subst hux
    exact ⟨.refl u, h⟩
  | cons b p ih =>
    generalize hr : p ++ x :: q = r at h
    rw [List.cons_append, hr] at h
    cases h with
    | refl => simp at hr
    | step hedge hrest =>
      rw [← hr] at hrest
      exact ⟨.step hedge (ih hrest).1, (ih hrest).2⟩

/-- A route that comes to a block twice can be shortened. -/
theorem Route.simple {u v : BlockId} {p : List BlockId} (h : graph.Route u p v) :
    ∃ q, graph.Route u q v ∧ q.Nodup := by
  induction h with
  | refl u => exact ⟨[u], .refl u, by simp⟩
  | @step u w v p hedge _ ih =>
    obtain ⟨q, hq, hnodup⟩ := ih
    by_cases hu : u ∈ q
    · obtain ⟨s, t, rfl⟩ := List.append_of_mem hu
      exact ⟨u :: t, hq.split.2, (List.nodup_append.mp hnodup).2.1⟩
    · exact ⟨u :: q, .step hedge hq, List.nodup_cons.mpr ⟨hu, hnodup⟩⟩

theorem Reaches.refl (u : BlockId) : graph.Reaches u u := ⟨[u], .refl u⟩

theorem Reaches.trans {u v w : BlockId} (huv : graph.Reaches u v) (hvw : graph.Reaches v w) :
    graph.Reaches u w := by
  obtain ⟨p, hp⟩ := huv
  obtain ⟨q, hq⟩ := hvw
  obtain ⟨r, hr, _⟩ := hp.trans hq
  exact ⟨r, hr⟩

theorem Reaches.edge {u v : BlockId} (h : v ∈ graph.successors u) : graph.Reaches u v :=
  ⟨[u, v], .step h (.refl v)⟩

/-- A block on a route reaches its end. -/
theorem Route.to_last {u v x : BlockId} {p : List BlockId} (h : graph.Route u p v) (hx : x ∈ p) :
    graph.Reaches x v := by
  obtain ⟨q, r, rfl⟩ := List.append_of_mem hx
  exact ⟨x :: r, h.split.2⟩

/-- The beginning of a route reaches each block on it. -/
theorem Route.of_head {u v x : BlockId} {p : List BlockId} (h : graph.Route u p v) (hx : x ∈ p) :
    graph.Reaches u x := by
  obtain ⟨q, r, rfl⟩ := List.append_of_mem hx
  exact ⟨q ++ [x], h.split.1⟩

/-- In a graph whose edges stay inside, so do its routes. -/
theorem Reaches.lt_size (hrange : graph.InRange) {u v : BlockId} (h : graph.Reaches u v)
    (hu : u < graph.size) : v < graph.size := by
  obtain ⟨p, hp⟩ := h
  induction hp with
  | refl u => exact hu
  | step hedge _ ih => exact ih (hrange.successors _ _ hedge)

/-- Routes do not leave a set that no edge leaves. -/
theorem Reaches.mem_of_closed {ids : List BlockId} {u v : BlockId} (h : graph.Reaches u v)
    (hclosed : ∀ id ∈ ids, ∀ next ∈ graph.successors id, next ∈ ids) (hu : u ∈ ids) : v ∈ ids := by
  obtain ⟨p, hp⟩ := h
  induction hp with
  | refl u => exact hu
  | step hedge _ ih => exact ih (hclosed _ hu _ hedge)

/-! ## Cycles -/

/-- The two blocks lie on one closed route. -/
def CommonCycle (graph : Graph) (a b : BlockId) : Prop :=
  ∃ u blocks v, graph.Route u blocks v ∧ u ∈ graph.successors v ∧ a ∈ blocks ∧ b ∈ blocks

theorem CommonCycle.symm {a b : BlockId} (h : graph.CommonCycle a b) : graph.CommonCycle b a := by
  obtain ⟨u, p, v, hp, hedge, ha, hb⟩ := h
  exact ⟨u, p, v, hp, hedge, hb, ha⟩

theorem CommonCycle.reaches {a b : BlockId} (h : graph.CommonCycle a b) : graph.Reaches a b := by
  obtain ⟨u, p, v, hp, hedge, ha, hb⟩ := h
  exact ((hp.to_last ha).trans (Reaches.edge hedge)).trans (hp.of_head hb)

/-- A route from `a` to `b` and an edge and a route back make a closed route. -/
theorem commonCycle_of_edge {a b c : BlockId} (hab : graph.Reaches a b)
    (hedge : c ∈ graph.successors b) (hca : graph.Reaches c a) : graph.CommonCycle a b := by
  obtain ⟨p, hp⟩ := hab
  obtain ⟨q, hq⟩ := hca
  obtain ⟨r, hr, hmem⟩ := hq.trans hp
  exact ⟨c, r, b, hr, hedge, (hmem a).2 (.inr hp.head_mem), (hmem b).2 (.inr hp.last_mem)⟩

/-- Two blocks that reach each other are on a cycle. -/
theorem commonCycle_of_reaches {a b : BlockId} (hne : a ≠ b) (hab : graph.Reaches a b)
    (hba : graph.Reaches b a) : graph.CommonCycle a b := by
  obtain ⟨q, hq⟩ := hba
  cases hq with
  | refl => exact absurd rfl hne
  | step hedge hrest => exact commonCycle_of_edge hab hedge ⟨_, hrest⟩

/-- A block lies on a cycle if one of its edges leads back to it. -/
theorem commonCycle_self {a : BlockId} :
    graph.CommonCycle a a ↔ ∃ next ∈ graph.successors a, graph.Reaches next a := by
  constructor
  · rintro ⟨u, p, v, hp, hedge, ha, _⟩
    obtain ⟨q, r, rfl⟩ := List.append_of_mem ha
    obtain ⟨hfrom, hto⟩ := hp.split
    cases hto with
    | refl => exact ⟨u, hedge, _, hfrom⟩
    | step hedge' hrest =>
      exact ⟨_, hedge', Reaches.trans ⟨_, hrest⟩ ((Reaches.edge hedge).trans ⟨_, hfrom⟩)⟩
  · rintro ⟨next, hnext, hback⟩
    exact commonCycle_of_edge (.refl a) hnext hback

/-- What lies on a route between two blocks of a cycle is on the cycle. -/
theorem CommonCycle.of_route {a b x : BlockId} {p : List BlockId} (h : graph.CommonCycle a b)
    (hp : graph.Route a p b) (hx : x ∈ p) : graph.CommonCycle x b := by
  by_cases hne : x = b
  · subst hne
    obtain ⟨u, q, v, hq, hedge, _, hb⟩ := h
    exact ⟨u, q, v, hq, hedge, hb, hb⟩
  · exact commonCycle_of_reaches hne (hp.to_last hx) (h.symm.reaches.trans (hp.of_head hx))

/-- Along a closed route one comes from each block to each other. -/
theorem Route.around {u v x y : BlockId} {p : List BlockId} (hp : graph.Route u p v)
    (hedge : u ∈ graph.successors v) (hx : x ∈ p) (hy : y ∈ p) :
    ∃ r, graph.Route x r y ∧ ∀ b ∈ r, b ∈ p := by
  obtain ⟨p₁, p₂, hsplit⟩ := List.append_of_mem hx
  obtain ⟨q₁, q₂, hsplit'⟩ := List.append_of_mem hy
  have hto := (hsplit ▸ hp).split.2
  have hfrom := (hsplit' ▸ hp).split.1
  -- from `x` on to the end, over the edge, and from the beginning on to `y`
  obtain ⟨r, hr, hmem⟩ := hto.trans (.step hedge hfrom)
  refine ⟨r, hr, fun b hb => ?_⟩
  rcases (hmem b).1 hb with hb | hb
  · exact hsplit ▸ List.mem_append_right p₁ hb
  · rcases List.mem_cons.mp hb with rfl | hb
    · exact hp.last_mem
    · rw [hsplit', List.append_cons]
      exact List.mem_append_left _ hb

/-- Two cycles through one block make a single one. -/
theorem CommonCycle.trans {a b c : BlockId} (hab : graph.CommonCycle a b)
    (hbc : graph.CommonCycle b c) : graph.CommonCycle a c := by
  by_cases hac : a = c
  · subst hac
    obtain ⟨u, p, v, hp, hedge, ha, _⟩ := hab
    exact ⟨u, p, v, hp, hedge, ha, ha⟩
  · exact commonCycle_of_reaches hac (hab.reaches.trans hbc.reaches)
      (hbc.symm.reaches.trans hab.symm.reaches)

/-! ## Dominance and natural loops -/

/-- `a` lies on every route from a start to `b`. -/
def Dominates (graph : Graph) (a b : BlockId) : Prop :=
  ∀ start ∈ graph.starts, ∀ p, graph.Route start p b → a ∈ p

/-- The edge from `u` to `head` closes a natural loop: `head` dominates `u`. -/
def BackEdge (graph : Graph) (u head : BlockId) : Prop :=
  head ∈ graph.successors u ∧ graph.Dominates head u

/-- `head` heads a natural loop that contains the other block `b`: `head` dominates `b`, and `b`
reaches an edge that closes the loop without coming to `head` before. -/
def Encloses (graph : Graph) (head b : BlockId) : Prop :=
  head ≠ b ∧ graph.Dominates head b ∧
    ∃ u p, graph.Route b p u ∧ head ∉ p ∧ graph.BackEdge u head

/-- Every cycle is entered through one of its blocks: it contains a block that lies on all routes
from the starts to all blocks of the cycle. -/
def Reducible (graph : Graph) : Prop :=
  ∀ u p v, graph.Route u p v → p.Nodup → u ∈ graph.successors v →
    ∃ d ∈ p, ∀ b ∈ p, graph.Dominates d b

/-- Every block can be reached from a start. -/
def Reachable (graph : Graph) : Prop :=
  ∀ b < graph.size, ∃ start ∈ graph.starts, graph.Reaches start b

/-- What dominates a dominator dominates the block. -/
theorem Dominates.trans {a b c : BlockId} (hab : graph.Dominates a b) (hbc : graph.Dominates b c) :
    graph.Dominates a c := by
  intro start hstart p hp
  obtain ⟨q, r, rfl⟩ := List.append_of_mem (hbc start hstart p hp)
  have ha := hab start hstart _ hp.split.1
  simp only [List.mem_append, List.mem_cons, List.not_mem_nil, or_false] at ha ⊢
  exact ha.imp_right Or.inl

/-- A block that dominates another one can be reached without it. -/
theorem Dominates.before {a b start : BlockId} (h : graph.Dominates a b) (hne : a ≠ b)
    (hstart : start ∈ graph.starts) (hreach : graph.Reaches start b) :
    ∃ p, graph.Route start p a ∧ b ∉ p := by
  obtain ⟨p, hp⟩ := hreach
  obtain ⟨p, hp, hnodup⟩ := hp.simple
  obtain ⟨q, r, rfl⟩ := List.append_of_mem (h start hstart p hp)
  refine ⟨q ++ [a], hp.split.1, fun hb => ?_⟩
  -- `b` ends the route, so it is not on the part before `a` as well
  have hbq : b ∈ q := by
    simpa [Ne.symm hne] using hb
  exact (List.nodup_append.mp hnodup).2.2 b hbq b hp.split.2.last_mem rfl

/-- No two blocks dominate each other. -/
theorem Dominates.antisymm {a b start : BlockId} (hab : graph.Dominates a b)
    (hba : graph.Dominates b a) (hstart : start ∈ graph.starts) (hreach : graph.Reaches start b) :
    a = b := by
  by_contra hne
  obtain ⟨p, hp, hbp⟩ := hab.before hne hstart hreach
  exact hbp (hba start hstart p hp)

/-- A block that dominates the end of an edge, but is not the end, dominates its beginning. -/
theorem Dominates.of_edge {a x y : BlockId} (h : graph.Dominates a y)
    (hedge : y ∈ graph.successors x) (hne : a ≠ y) : graph.Dominates a x := by
  intro start hstart p hp
  obtain ⟨r, hr, hmem⟩ := hp.trans (.step hedge (.refl y))
  rcases (hmem a).1 (h start hstart r hr) with ha | ha
  · exact ha
  · rcases List.mem_cons.mp ha with rfl | ha
    · exact hp.last_mem
    · exact absurd (List.mem_singleton.mp ha) hne

/-- A loop around the end of an edge is a loop around its beginning, if that is not the header. -/
theorem Encloses.of_edge {a x y : BlockId} (h : graph.Encloses a y)
    (hedge : y ∈ graph.successors x) (hne : a ≠ x) : graph.Encloses a x := by
  obtain ⟨hay, hdom, u, p, hp, hap, hback⟩ := h
  refine ⟨hne, hdom.of_edge hedge hay, u, x :: p, .step hedge hp, ?_, hback⟩
  simp only [List.mem_cons, not_or]
  exact ⟨hne, hap⟩

/-- Of two headers of loops around `x`, the one from which a route leads to `x` by way of the other
and not back to itself encloses the other. -/
theorem Encloses.nested {a b x : BlockId} (ha : graph.Encloses a x) (hne : a ≠ b)
    (hroute : ∃ q, graph.Route b q x ∧ a ∉ q) : graph.Encloses a b := by
  obtain ⟨_, hdom, u, p, hp, hap, hback⟩ := ha
  obtain ⟨q, hq, haq⟩ := hroute
  refine ⟨hne, ?_, ?_⟩
  · intro start hstart r hr
    obtain ⟨s, hs, hmem⟩ := hr.trans hq
    exact ((hmem a).1 (hdom start hstart s hs)).resolve_right haq
  · obtain ⟨r, hr, hmem⟩ := hq.trans hp
    refine ⟨u, r, hr, fun har => ?_, hback⟩
    rcases (hmem a).1 har with har | har
    · exact haq har
    · exact hap har

/-- A loop around a header is a loop around all that the header's loop contains. -/
theorem Encloses.trans (hreach : graph.Reachable) {a b x : BlockId} (hx : x < graph.size)
    (hab : graph.Encloses a b) (hbx : graph.Encloses b x) : graph.Encloses a x := by
  obtain ⟨start, hstart, hsx⟩ := hreach x hx
  obtain ⟨habne, habdom, v, q, hq, haq, haback⟩ := hab
  obtain ⟨hbne, hbdom, u, p, hp, hbp, hbback⟩ := hbx
  obtain ⟨s, hs⟩ := hsx
  obtain ⟨s₁, s₂, rfl⟩ := List.append_of_mem (hbdom start hstart s hs)
  have hsb : graph.Reaches start b := ⟨_, hs.split.1⟩
  have hap : a ∉ p := by
    -- else a route comes to `a` before it comes to `b` and goes on to `u` without `b`
    intro hap
    obtain ⟨p₁, p₂, rfl⟩ := List.append_of_mem hap
    obtain ⟨t, ht, hbt⟩ := habdom.before habne hstart hsb
    obtain ⟨w, hw, hmem⟩ := ht.trans hp.split.2
    rcases (hmem b).1 (hbback.2 start hstart w hw) with hb | hb
    · exact hbt hb
    · exact hbp (List.mem_append_right _ hb)
  refine ⟨?_, habdom.trans hbdom, ?_⟩
  · rintro rfl
    exact hbne (hbdom.antisymm habdom hstart ⟨_, hs⟩)
  · obtain ⟨r, hr, hmem⟩ := hp.trans (.step hbback.1 hq)
    refine ⟨v, r, hr, fun har => ?_, haback⟩
    rcases (hmem a).1 har with har | har
    · exact hap har
    · rcases List.mem_cons.mp har with rfl | har
      · exact hap hp.last_mem
      · exact haq har

end RamOverlay.Graph
