import RamOverlay.Proofs.Loop.HeaderChain

/-!
# Natural loops

In a graph in which every cycle is entered through one of its blocks, the headers that the searches
find are those of the natural loops.

* **`headerOrder_encloses`**: the headers of the natural loops around a block are ordered along
  every path to it, so no search makes a header of any other block.
* **`Stage.Complete`**: along a followed edge, the headers of the end have become headers of the
  beginning. So no natural loop is missed.
-/

namespace RamOverlay.Graph

variable {graph : Graph} {start : BlockId}

/-! ## Only natural loops -/

/-- A block on the path to which an edge leads back from the head of the path dominates the head. -/
theorem Reducible.dominates_of_back (hred : graph.Reducible) (hstart : start ∈ graph.starts)
    {id next : BlockId} {path : Path} (hpath : graph.TreePath start (id :: path))
    (hedge : next ∈ graph.successors id) (hmem : next ∈ id :: path) :
    graph.Dominates next id := by
  obtain ⟨p, q, hsplit⟩ := List.append_of_mem hmem
  rw [hsplit] at hpath
  have hhead : (p ++ [next]).head? = some id := head?_of_cons_eq_append hsplit
  obtain ⟨hp, hq, hdisjoint⟩ := List.nodup_append.mp hpath.nodup
  have hnodup : (next :: p.reverse).Nodup := by
    refine List.nodup_cons.mpr ⟨fun h => ?_, List.nodup_reverse.mpr hp⟩
    exact hdisjoint next (List.mem_reverse.mp h) next List.mem_cons_self rfl
  obtain ⟨d, hd, hdom⟩ := hred next _ id (hpath.route hhead) hnodup hedge
  -- `d` lies on the path to `next` as well, so it is `next`
  have hdq : d ∈ next :: q := by
    have h := hdom next List.mem_cons_self start hstart _ hpath.suffix.route_start
    simpa [or_comm] using h
  have hdnext : d = next := by
    rcases List.mem_cons.mp hd with rfl | hdp
    · rfl
    · exact absurd rfl (hdisjoint d (List.mem_reverse.mp hdp) d hdq)
  subst hdnext
  exact hdom id (hpath.route hhead).last_mem

/-- In a reducible graph a block that closes a cycle on the path dominates it, so it encloses it. -/
theorem headerOrder_encloses (hred : graph.Reducible) (hstart : start ∈ graph.starts) :
    graph.HeaderOrder start graph.Encloses where
  back id path next hpath hedge hmem := by
    by_cases hne : id = next
    · exact .inl hne
    · -- the edge itself closes the loop
      have hdom := hred.dominates_of_back hstart hpath hedge hmem
      refine .inr ⟨Ne.symm hne, hdom, id, [id], .refl id, ?_, hedge, hdom⟩
      simpa using Ne.symm hne
  hand id path next header hpath hedge hencloses _ := by
    by_cases hne : id = header
    · exact .inl hne
    · exact .inr (hencloses.of_edge hedge (Ne.symm hne))
  below b path header hpath hencloses := by
    have h := hencloses.2.1 start hstart _ hpath.route_start
    exact (List.mem_cons.mp (List.mem_reverse.mp h)).resolve_left hencloses.1
  nested b p inner q outer hpath houter _ hencloses := by
    have hsplit : b :: (p ++ inner :: q) = (b :: p) ++ inner :: q := rfl
    rw [hsplit] at hpath
    obtain ⟨_, hq, hdisjoint⟩ := List.nodup_append.mp hpath.nodup
    have hne : outer ≠ inner := by
      rintro rfl
      exact (List.nodup_cons.mp hq).1 houter
    -- the part of the path from `inner` up to `b` does not come past `outer`
    refine hencloses.nested hne ⟨_, hpath.route rfl, fun h => ?_⟩
    rcases List.mem_cons.mp h with h | h
    · exact hne h
    · exact hdisjoint outer (List.mem_reverse.mp h) outer (List.mem_cons_of_mem _ houter) rfl

/-! ## All natural loops -/

/-- What comes of a followed edge from `x` to `y`: `y` is a header of `x`, or it has been left, does
not dominate `x`, and its headers are headers of `x`. -/
def Settled (graph : Graph) (stage : Stage) (x y : BlockId) : Prop :=
  (x = y ∨ stage.search.Above x y) ∨
    (stage.search.visited.contains y = true ∧ y ∉ stage.path ∧ ¬ graph.Dominates y x ∧
      ∀ header, stage.search.header? y = some header →
        x = header ∨ stage.search.Above x header)

/-- All edges that have been followed are settled. -/
structure Stage.Complete (graph : Graph) (stage : Stage) : Prop where
  left : ∀ x, stage.search.visited.contains x = true → x ∉ stage.path →
    ∀ y ∈ graph.successors x, graph.Settled stage x y
  followed : ∀ frame ∈ stage.stack, ∀ y ∈ frame.2, graph.Settled stage frame.1 y

/-- What is settled stays so: no header is lost, and a block that has been left gets no new ones. -/
theorem Step.settled (hrange : graph.InRange) (hord : graph.HeaderOrder start graph.Encloses)
    {s t : Stage} (hstep : graph.Step s t) (hvalid : s.Valid graph)
    (hexplored : s.Explored graph start) (hsound : s.search.Sound graph.Encloses)
    (hquiet : Quiet s.events) {x y : BlockId} (h : graph.Settled s x y) : graph.Settled t x y := by
  obtain ⟨_, hquiet', hframe⟩ := hstep.sound hrange hord hvalid hexplored hsound hquiet
  have hgrows := hstep.grows hrange hvalid hquiet'
  rcases h with h | ⟨hentered, hoff, hdom, hheaders⟩
  · exact .inl (h.imp_right (hgrows x y))
  · obtain ⟨hentered', hoff'⟩ := hstep.entered hentered
    refine .inr ⟨hentered', hoff' hoff, hdom, fun header hheader => ?_⟩
    rw [hframe y hoff] at hheader
    exact (hheaders header hheader).imp_right (hgrows x header)

section Outcome

variable {left : Bool} {path : Path} {id next : BlockId} {search : Search} {effect : Traced Search}

/-- The edge that has just been followed is settled. -/
theorem Outcome.settled (hord : graph.HeaderOrder start graph.Encloses)
    (hstart : start ∈ graph.starts) (h : graph.Outcome left (id :: path) id next search effect)
    {stage : Stage} (hstage : stage.search = effect.value) (hstagepath : stage.path = id :: path)
    (hvalid : stage.Valid graph) (hpath : graph.TreePath start (id :: path))
    (hedge : next ∈ graph.successors id) (hentered : search.visited.contains next = true)
    (hheaders : search.Sound fun header b => header < graph.size ∧ header ≠ b)
    (hsound : search.Sound graph.Encloses)
    (hchild : left = true → graph.TreePath start (next :: id :: path)) (hnext : next < graph.size) :
    graph.Settled stage id next := by
  have hlength : (id :: path).length ≤ graph.size := hstagepath ▸ hvalid.length_le
  obtain ⟨_, hquiet, hframe⟩ := h.sound_of_order hord hpath hedge hchild hlength hsound
  have hsize : search.links.size = graph.size := by
    rw [← h.size_eq, ← hstage]
    exact hvalid.size
  have hid : id < graph.size := hvalid.lt_size (hstagepath ▸ List.mem_cons_self)
  obtain ⟨_, hback, hhand⟩ := h.grows (hheaders.mono fun header b h => hsize ▸ h.1)
    (hsize ▸ hid) (hsize ▸ hnext) hquiet
  unfold Settled
  rw [hstage, hstagepath, h.visited_eq]
  by_cases hmem : next ∈ id :: path
  · exact .inl (hback hmem)
  · -- the path leads from the start, so all that dominates `id` is on it
    have honpath : ∀ {header}, graph.Dominates header id → header ∈ id :: path := fun hdom => by
      simpa [or_comm] using hdom start hstart _ hpath.route_start
    refine .inr ⟨hentered, hmem, fun hdom => hmem (honpath hdom), fun header hheader => ?_⟩
    rw [hframe next hmem] at hheader
    have hencloses := hsound next header hheader
    have hon : header ∈ id :: path := by
      by_cases hne : header = id
      · exact hne ▸ List.mem_cons_self
      · exact honpath (hencloses.of_edge hedge hne).2.1
    exact hhand header hheader hmem (.inr hon)

end Outcome

/-- A step settles the edge that it follows, and leaves the others settled. -/
theorem Step.complete (hrange : graph.InRange) (hord : graph.HeaderOrder start graph.Encloses)
    (hstart : start ∈ graph.starts) {s t : Stage} (hstep : graph.Step s t)
    (hvalid : s.Valid graph) (hexplored : s.Explored graph start)
    (hsound : s.search.Sound graph.Encloses) (hquiet : Quiet s.events)
    (h : s.Complete graph) : t.Complete graph := by
  -- what is settled stays so; each case adds the edge that it follows, if any
  have hsettled : ∀ {x y}, graph.Settled s x y → graph.Settled t x y :=
    fun h => hstep.settled hrange hord hvalid hexplored hsound hquiet h
  have hvalid' := hstep.valid hrange hvalid
  cases hstep with
  | @enter id next done rest stack search events hedges hnew =>
    refine ⟨fun x hx hoff y hy => ?_, fun frame hframe y hy => ?_⟩
    · have hxnext : x ≠ next := fun hxnext => hoff (hxnext ▸ List.mem_cons_self)
      have hx : search.visited.contains x = true := by simpa [hxnext] using hx
      exact hsettled (h.left x hx (fun hm => hoff (List.mem_cons_of_mem _ hm)) y hy)
    · rcases List.mem_cons.mp hframe with rfl | hframe
      · cases hy
      · exact hsettled (h.followed frame hframe y hy)
  | @meet id next done rest stack search events effect hedges hold houtcome =>
    have hnext : next < graph.size := hrange.successors id next (by simp [hedges])
    have hedge := houtcome.settled hord hstart rfl rfl hvalid' hexplored.tree (by simp [hedges])
      hold hvalid.headers hsound (by simp) hnext
    refine ⟨fun x hx hoff y hy => ?_, fun frame hframe y hy => ?_⟩
    · exact hsettled (h.left x (houtcome.visited_eq ▸ hx) hoff y hy)
    · rcases List.mem_cons.mp hframe with rfl | hframe
      · rcases List.mem_append.mp hy with hy | hy
        · exact hsettled (h.followed _ List.mem_cons_self y hy)
        · rw [List.mem_singleton.mp hy]
          exact hedge
      · exact hsettled (h.followed frame (List.mem_cons_of_mem _ hframe) y hy)
  | @leave id next done rest stack search events effect hedges houtcome =>
    have hentered := hvalid.entered next List.mem_cons_self
    have hnext : next < graph.size := hvalid.lt_size List.mem_cons_self
    have hedge := houtcome.settled hord hstart rfl rfl hvalid'
      (hexplored.tree.suffix (p := [next])) (by simp [hedges]) hentered hvalid.headers hsound
      (fun _ => hexplored.tree) hnext
    refine ⟨fun x hx hoff y hy => ?_, fun frame hframe y hy => ?_⟩
    · by_cases hxnext : x = next
      · -- all edges of the block that is left have been followed
        subst hxnext
        exact hsettled (h.followed _ List.mem_cons_self y hy)
      · refine hsettled (h.left x (houtcome.visited_eq ▸ hx) (fun hm => ?_) y hy)
        exact hoff ((List.mem_cons.mp hm).resolve_left hxnext)
    · rcases List.mem_cons.mp hframe with rfl | hframe
      · rcases List.mem_append.mp hy with hy | hy
        · exact hsettled (h.followed _ (List.mem_cons_of_mem _ List.mem_cons_self) y hy)
        · rw [List.mem_singleton.mp hy]
          exact hedge
      · exact hsettled (h.followed frame
          (List.mem_cons_of_mem _ (List.mem_cons_of_mem _ hframe)) y hy)

/-- So after a run all followed edges are settled. -/
theorem Run.complete (hrange : graph.InRange) (hord : graph.HeaderOrder start graph.Encloses)
    (hstart : start ∈ graph.starts) {s t : Stage} (hrun : graph.Run s t) (hvalid : s.Valid graph)
    (hexplored : s.Explored graph start) (hsound : s.search.Sound graph.Encloses)
    (hquiet : Quiet s.events) (h : s.Complete graph) : t.Complete graph := by
  induction hrun with
  | refl => exact h
  | tail hrun hstep ih =>
    have hsound' := Run.sound hrange hord hrun hvalid hexplored hsound hquiet
    exact hstep.complete hrange hord hstart (Run.valid hrange hrun hvalid)
      (Run.explored hrange hrun hvalid hexplored) hsound'.1 hsound'.2 ih

/-- After the search from a start, all that encloses a block it has come to is above the block: the
header is handed back along the route from the block to the edge that closes the loop. -/
theorem above_of_encloses (hrange : graph.InRange) (hred : graph.Reducible)
    (hstart : start ∈ graph.starts) {links : Array LoopLinks} (hlinks : graph.LinksInRange links)
    (hsound : (Search.fresh graph links).Sound graph.Encloses) {b header : BlockId}
    (hreach : graph.Reaches start b) (hencloses : graph.Encloses header b) :
    (graph.searchOf start links).value.Above b header := by
  have hlt := hrange.starts start hstart
  have hrun := searchOf_run hrange hlt hlinks
  have hvalid := Stage.valid_first hlt hlinks
  have hexplored := Stage.explored_first hlt links
  have hcomplete : (Stage.last graph start links).Complete graph := by
    refine Run.complete hrange (headerOrder_encloses hred hstart) hstart hrun hvalid hexplored
      hsound (by simp [Stage.first, Quiet]) ⟨fun x hx hoff => ?_, fun frame hframe y hy => ?_⟩
    · have hxs : x = start := by simpa [Stage.first, hlt] using hx
      exact absurd (hxs ▸ List.mem_singleton_self start) hoff
    · rw [List.mem_singleton.mp hframe] at hy
      cases hy
  have hcontains := (Run.explored hrange hrun hvalid hexplored).contains_iff rfl
    (Run.valid hrange hrun hvalid)
  have hedges : ∀ {x y}, graph.Reaches start x → y ∈ graph.successors x →
      graph.Settled (.last graph start links) x y := by
    intro x y hx hy
    by_cases hxs : x = start
    · subst hxs
      exact hcomplete.followed _ List.mem_cons_self y hy
    · exact hcomplete.left x ((hcontains x).2 hx) (fun hm => hxs (List.mem_singleton.mp hm)) y hy
  obtain ⟨-, -, u, p, hp, hoff, hback⟩ := hencloses
  induction hp with
  | refl u =>
    rcases hedges hreach hback.1 with (heq | habove) | ⟨_, _, hdom, _⟩
    · exact absurd heq (fun heq => hoff (heq ▸ List.mem_cons_self))
    · exact habove
    · exact absurd hback.2 hdom
  | @step x y u p hedge hrest ih =>
    have hne : x ≠ header := fun heq => hoff (heq ▸ List.mem_cons_self)
    have hy := ih (hreach.trans (.edge hedge)) (fun hm => hoff (List.mem_cons_of_mem x hm)) hback
    rcases hedges hreach hedge with (rfl | habove) | ⟨_, _, _, hheaders⟩
    · exact hy
    · exact Relation.TransGen.trans habove hy
    · -- the headers of `y` begin with one that `x` has, or that is `x`
      obtain ⟨outer, houter, hrest⟩ := Relation.TransGen.head'_iff.1 hy
      rcases hheaders outer houter with rfl | habove
      · rcases Relation.reflTransGen_iff_eq_or_transGen.1 hrest with rfl | hrest
        · exact absurd rfl hne
        · exact hrest
      · exact Relation.TransGen.trans_left habove hrest

/-! ## The analysed graph -/

/-- The headers above a block are the headers of the natural loops around it. -/
theorem outer_iff_encloses (hrange : graph.InRange) (hreach : graph.Reachable)
    (hred : graph.Reducible) {b header : BlockId} (hb : b < graph.size) :
    graph.analyzeLoops.value.Outer b header ↔ graph.Encloses header b := by
  have hord : ∀ start ∈ graph.starts, graph.HeaderOrder start graph.Encloses :=
    fun _ hstart => headerOrder_encloses hred hstart
  obtain ⟨hsound, hquiet⟩ := searchAll_sound hrange hrange.starts hord
    graph.linksInRange_replicate (graph.sound_replicate graph.Encloses)
  rw [outer_analyzeLoops hrange]
  constructor
  · intro habove
    induction habove with
    | single hheader => exact hsound _ _ hheader
    | tail _ hheader ih => exact (hsound _ _ hheader).trans hreach hb ih
  · intro hencloses
    obtain ⟨start, hstart, hsb⟩ := hreach b hb
    -- the search from this start finds the header, and the later ones keep it
    obtain ⟨links, hlinks, hsound', _, hgrows⟩ := searchAll_of_mem
      (P := fun links => (Search.fresh graph links).Sound graph.Encloses) hrange hrange.starts
      graph.linksInRange_replicate (graph.sound_replicate graph.Encloses)
      (fun start hstart links hlinks hsound =>
        (sound_searchOf hrange (hrange.starts start hstart) (hord start hstart) hlinks hsound).1)
      hquiet hstart
    exact hgrows b header (above_of_encloses hrange hred hstart hlinks hsound' hsb hencloses)

/-- The blocks that head loops are those to which a back edge leads. -/
theorem isLoopHeader_iff_backEdge (hrange : graph.InRange) (hreach : graph.Reachable)
    (hred : graph.Reducible) (header : BlockId) :
    graph.analyzeLoops.value.isLoopHeader header = true ↔ ∃ u, graph.BackEdge u header := by
  rw [isLoopHeader_analyzeLoops hrange]
  have hheader : ∀ b, graph.foundHeader? b = some header → graph.Encloses header b := by
    intro b hb
    have hlt : b < graph.size :=
      (linksInRange_found hrange).size ▸ Search.lt_size_of_header? hb
    refine (outer_iff_encloses hrange hreach hred hlt).1 (.single ?_)
    rw [outerHeader?_analyzeLoops hrange, hb]
  constructor
  · rintro ⟨_, hself | ⟨b, hb⟩⟩
    · exact ⟨header, hself, fun _ _ _ hp => hp.last_mem⟩
    · obtain ⟨_, _, u, _, _, _, hback⟩ := hheader b hb
      exact ⟨u, hback⟩
  · rintro ⟨u, hback⟩
    refine ⟨hrange.successors u header hback.1, ?_⟩
    -- the end of a back edge from another block is a header in the chain of that block
    by_cases hne : u = header
    · exact .inl (hne ▸ hback.1)
    · have hu : u < graph.size := by
        by_contra hu
        have hnone := graph.successors_of_size_le (Nat.le_of_not_lt hu)
        simp [BackEdge, hnone] at hback
      have hencloses : graph.Encloses header u := by
        refine ⟨Ne.symm hne, hback.2, u, [u], .refl u, ?_, hback⟩
        simpa using Ne.symm hne
      have houter := (outer_iff_encloses hrange hreach hred hu).2 hencloses
      obtain ⟨b, _, hb⟩ := Relation.TransGen.tail'_iff.1 houter
      rw [outerHeader?_analyzeLoops hrange] at hb
      exact .inr ⟨b, hb⟩

/-- In a graph in which every block can be reached and every cycle is entered through one of its
blocks, loop analysis finds the natural loops: the headers are the ends of the back edges, and the
chain of a block lists the headers of the natural loops around it, each once and the inner ones
before the outer ones. -/
theorem analyzeLoops_of_reducible (graph : Graph) (hrange : graph.InRange)
    (hreach : graph.Reachable) (hred : graph.Reducible) :
    (∀ header, header ∈ graph.analyzeLoops.value.loopHeaders ↔ ∃ u, graph.BackEdge u header) ∧
      ∀ b < graph.size,
        (∀ header, header ∈ (graph.analyzeLoops.value.headerChain b).value ↔
          graph.Encloses header b) ∧
        (graph.analyzeLoops.value.headerChain b).value.Nodup ∧
        (graph.analyzeLoops.value.headerChain b).value.Pairwise
          (fun inner outer => graph.Encloses outer inner) := by
  have hlt : ∀ b header, graph.analyzeLoops.value.outerHeader? b = some header →
      b < graph.size ∧ header < graph.size := by
    intro b header hb
    rw [outerHeader?_analyzeLoops hrange] at hb
    exact ⟨(linksInRange_found hrange).size ▸ Search.lt_size_of_header? hb,
      ((linksInRange_found hrange).headers b header hb).1⟩
  have hsize : graph.analyzeLoops.value.size = graph.size := by simp [value_analyzeLoops]
  have hacyclic : ∀ b, ¬ graph.analyzeLoops.value.Outer b b := by
    intro b hcycle
    obtain ⟨_, hb, _⟩ := Relation.TransGen.head'_iff.1 hcycle
    exact ((outer_iff_encloses hrange hreach hred (hlt b _ hb).1).1 hcycle).1 rfl
  constructor
  · intro header
    have hheader := isLoopHeader_iff_backEdge hrange hreach hred header
    simp only [loopHeaders, ids, hsize, List.mem_filter, List.mem_range, hheader,
      and_iff_right_iff_imp]
    exact fun ⟨u, hback⟩ => hrange.successors u header hback.1
  · intro b hb
    obtain ⟨_, hnodup, hmem, hpairwise⟩ := headerChain_of_acyclic
      (fun b header h => hsize ▸ (hlt b header h).2) hacyclic b
    refine ⟨fun header => (hmem header).trans (outer_iff_encloses hrange hreach hred hb), hnodup,
      hpairwise.imp_of_mem fun {inner outer} hinner _ houter => ?_⟩
    obtain ⟨_, _, hin⟩ := Relation.TransGen.tail'_iff.1 ((hmem inner).1 hinner)
    exact (outer_iff_encloses hrange hreach hred (hlt _ inner hin).2).1 houter

/-- Two blocks, the first a header of a loop around the second, which is its own successor. -/
theorem analyzeLoops_of_reducible_nested :
    let graph := ofEdges [[1], [0, 1]] [0]
    graph.InRange ∧ graph.Reachable ∧ graph.Reducible ∧ graph.Encloses 0 1 ∧
      ∃ u, graph.BackEdge u 1 := by
  intro graph
  have hrange : graph.InRange := inRange_of_lt (by decide) (by decide)
  have hreach : graph.Reachable := by
    intro b hb
    have hb : b = 0 ∨ b = 1 := by
      change b < 2 at hb
      omega
    refine ⟨0, by decide, ?_⟩
    rcases hb with rfl | rfl
    · exact .refl 0
    · exact .edge (by decide)
  have hred : graph.Reducible := by
    intro u p v hp _ hedge
    by_cases hzero : 0 ∈ p
    · -- every route from the start contains it
      refine ⟨0, hzero, fun b _ start hstart q hq => ?_⟩
      exact (List.mem_singleton.mp hstart) ▸ hq.head_mem
    · have hone : ∀ b ∈ p, b = 1 := by
        intro b hb
        have hlt : b < 2 := (hp.of_head hb).lt_size hrange (hrange.successors v u hedge)
        have hne : b ≠ 0 := fun h => hzero (h ▸ hb)
        exact Nat.le_antisymm (Nat.le_of_lt_succ hlt) (Nat.pos_of_ne_zero hne)
      exact ⟨u, hp.head_mem, fun b hb start _ q hq =>
        (hone u hp.head_mem).trans (hone b hb).symm ▸ hq.last_mem⟩
  obtain ⟨hheaders, hchains⟩ := analyzeLoops_of_reducible graph hrange hreach hred
  exact ⟨hrange, hreach, hred, ((hchains 1 (by decide)).1 0).1 (by decide),
    (hheaders 1).1 (by decide +kernel)⟩

end RamOverlay.Graph
