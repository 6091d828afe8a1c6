import RamOverlay.Proofs.Loop.HeaderOrder

/-!
# From the searches to the header chains

The searches of all starts, one after the other over the same headers, and what the graph tells
about its loops afterwards.

* **`searchAll_induction`**: a fact about the headers that every search keeps is true at the end.
* **`searchAll_of_mem`**: among the searches is one from each start, and what it has found is kept.
* **`headerChain_of_acyclic`**: without cycles among the headers, a header chain lists all headers
  above the block, each once, and each below those after it.
* **`outerHeader?_analyzeLoops`**: the chains go along the headers that the searches have found, for
  blocks that are their own successors, too.
-/

namespace RamOverlay.Graph

variable {graph : Graph}

/-! ## Chains -/

/-- The headers above a block: its outer header, the outer header of that one, and so on. -/
def Outer (graph : Graph) : BlockId → BlockId → Prop :=
  Relation.TransGen fun b header => graph.outerHeader? b = some header

/-- A chain has headers further out only. -/
theorem outer_of_mem_chainFrom {fuel : Nat} {id header : BlockId}
    (h : header ∈ (graph.chainFrom fuel id).1) : graph.Outer id header := by
  induction fuel generalizing id with
  | zero => cases h
  | succ fuel ih =>
    unfold chainFrom at h
    cases houter : graph.outerHeader? id with
    | none => simp [houter] at h
    | some outer =>
      simp only [houter, List.mem_cons] at h
      rcases h with rfl | h
      · exact .single houter
      · exact .head houter (ih h)

/-- Each header of a chain is outside of those before it. -/
theorem pairwise_chainFrom (graph : Graph) (fuel : Nat) (id : BlockId) :
    (graph.chainFrom fuel id).1.Pairwise graph.Outer := by
  induction fuel generalizing id with
  | zero => exact .nil
  | succ fuel ih =>
    unfold chainFrom
    cases houter : graph.outerHeader? id with
    | none => exact .nil
    | some outer => exact .cons (fun header h => outer_of_mem_chainFrom h) (ih outer)

/-- A chain that does not come to its end uses up the fuel. -/
theorem length_chainFrom {fuel : Nat} {id : BlockId} (h : (graph.chainFrom fuel id).2 = false) :
    (graph.chainFrom fuel id).1.length = fuel := by
  induction fuel generalizing id with
  | zero => rfl
  | succ fuel ih =>
    unfold chainFrom at h ⊢
    cases houter : graph.outerHeader? id with
    | none => simp [houter] at h
    | some outer =>
      simp only [houter] at h
      simp [ih h]

/-- A chain that comes to its end holds all headers above the block. -/
theorem mem_chainFrom {fuel : Nat} {id header : BlockId} (hend : (graph.chainFrom fuel id).2 = true)
    (h : graph.Outer id header) : header ∈ (graph.chainFrom fuel id).1 := by
  induction fuel generalizing id with
  | zero =>
    -- a chain without fuel ends only where there is no header, but there is one
    obtain ⟨outer, houter⟩ : ∃ outer, graph.outerHeader? id = some outer := by
      rcases Relation.TransGen.head'_iff.1 h with ⟨outer, houter, _⟩
      exact ⟨outer, houter⟩
    have hnone : (graph.linksOf id).primary? = none := by simpa [chainFrom] using hend
    simp [outerHeader?, hnone] at houter
  | succ fuel ih =>
    unfold chainFrom at hend ⊢
    obtain ⟨outer, houter, hrest⟩ := Relation.TransGen.head'_iff.1 h
    simp only [houter] at hend ⊢
    rcases Relation.reflTransGen_iff_eq_or_transGen.1 hrest with rfl | hrest
    · exact List.mem_cons_self
    · exact List.mem_cons_of_mem outer (ih hend hrest)

theorem value_headerChain (graph : Graph) (id : BlockId) :
    (graph.headerChain id).value = (graph.chainFrom (graph.size + 1) id).1 := rfl

/-- Without cycles among the headers, the header chain of a block lists the headers above it. -/
theorem headerChain_of_acyclic
    (hrange : ∀ b header, graph.outerHeader? b = some header → header < graph.size)
    (hacyclic : ∀ b, ¬ graph.Outer b b) (id : BlockId) :
    (graph.headerChain id).events = [] ∧ (graph.headerChain id).value.Nodup ∧
      (∀ header, header ∈ (graph.headerChain id).value ↔ graph.Outer id header) ∧
      (graph.headerChain id).value.Pairwise graph.Outer := by
  have hpairwise := graph.pairwise_chainFrom (graph.size + 1) id
  have hnodup : (graph.chainFrom (graph.size + 1) id).1.Nodup := by
    refine hpairwise.imp fun {a b} hab => ?_
    rintro rfl
    exact hacyclic a hab
  have hend : (graph.chainFrom (graph.size + 1) id).2 = true := by
    by_contra hend
    -- a chain that is cut off has more blocks than the graph
    have hlength := length_chainFrom (Bool.eq_false_iff.mpr hend)
    have hsub : (graph.chainFrom (graph.size + 1) id).1 ⊆ List.range graph.size := by
      intro header hmem
      obtain ⟨b, _, hb⟩ := Relation.TransGen.tail'_iff.1 (outer_of_mem_chainFrom hmem)
      exact List.mem_range.mpr (hrange b header hb)
    have hle := (List.subperm_of_subset hnodup hsub).length_le
    rw [hlength, List.length_range] at hle
    omega
  rw [value_headerChain]
  refine ⟨by simp [headerChain, hend], hnodup, fun header => ?_, hpairwise⟩
  exact ⟨outer_of_mem_chainFrom, mem_chainFrom hend⟩

/-- A header chain that is not reported and does not come back to its block shows that the block is
on no cycle of headers. -/
theorem not_outer_of_headerChain {id : BlockId} (hevents : (graph.headerChain id).events = [])
    (hmem : id ∉ (graph.headerChain id).value) : ¬ graph.Outer id id := by
  intro hcycle
  have hend : (graph.chainFrom (graph.size + 1) id).2 = true := by
    by_contra hend
    simp [headerChain, hend] at hevents
  exact hmem (mem_chainFrom hend hcycle)

/-! ## The searches of all starts -/

section SearchAll

variable {links : Array LoopLinks} {starts : List BlockId} {start : BlockId}

theorem value_searchAll_cons (links : Array LoopLinks) (start : BlockId) (rest : List BlockId) :
    (graph.searchAll links (start :: rest)).value =
      (graph.searchAll (graph.searchOf start links).value.links rest).value := rfl

theorem events_searchAll_cons (links : Array LoopLinks) (start : BlockId) (rest : List BlockId) :
    (graph.searchAll links (start :: rest)).events = (graph.searchOf start links).events ++
      (graph.searchAll (graph.searchOf start links).value.links rest).events := rfl

/-- What every search keeps is true after all of them. -/
theorem searchAll_induction {P : Array LoopLinks → Prop} (hfirst : P links)
    (hsearch : ∀ start ∈ starts, ∀ links, P links → P (graph.searchOf start links).value.links) :
    P (graph.searchAll links starts).value := by
  induction starts generalizing links with
  | nil => exact hfirst
  | cons start rest ih =>
    rw [value_searchAll_cons]
    exact ih (hsearch start List.mem_cons_self links hfirst)
      (fun start hmem => hsearch start (List.mem_cons_of_mem _ hmem))

theorem linksInRange_searchOf (hrange : graph.InRange) (hstart : start < graph.size)
    (hlinks : graph.LinksInRange links) :
    graph.LinksInRange (graph.searchOf start links).value.links := by
  have hvalid := Run.valid hrange (searchOf_run hrange hstart hlinks)
    (Stage.valid_first hstart hlinks)
  exact ⟨hvalid.size, hvalid.headers⟩

theorem grows_searchOf (hrange : graph.InRange) (hstart : start < graph.size)
    (hlinks : graph.LinksInRange links) (hquiet : Quiet (graph.searchOf start links).events) :
    (Search.fresh graph links).Grows (graph.searchOf start links).value :=
  Run.grows hrange (searchOf_run hrange hstart hlinks) (Stage.valid_first hstart hlinks) hquiet

theorem grows_searchAll (hrange : graph.InRange) (hstarts : ∀ start ∈ starts, start < graph.size)
    (hlinks : graph.LinksInRange links) (hquiet : Quiet (graph.searchAll links starts).events) :
    (Search.fresh graph links).Grows (.fresh graph (graph.searchAll links starts).value) := by
  induction starts generalizing links with
  | nil => exact fun _ _ h => h
  | cons start rest ih =>
    have hstart := hstarts start List.mem_cons_self
    rw [events_searchAll_cons, quiet_append] at hquiet
    exact (grows_searchOf hrange hstart hlinks hquiet.1).trans
      (ih (fun start hmem => hstarts start (List.mem_cons_of_mem _ hmem))
        (linksInRange_searchOf hrange hstart hlinks) hquiet.2)

/-- One search keeps the links in order and says nothing. -/
theorem sound_searchOf {R : BlockId → BlockId → Prop} (hrange : graph.InRange)
    (hstart : start < graph.size) (hord : graph.HeaderOrder start R)
    (hlinks : graph.LinksInRange links) (hsound : (Search.fresh graph links).Sound R) :
    (graph.searchOf start links).value.Sound R ∧ Quiet (graph.searchOf start links).events :=
  Run.sound hrange hord (searchOf_run hrange hstart hlinks) (Stage.valid_first hstart hlinks)
    (Stage.explored_first hstart links) hsound (by simp [Stage.first, Quiet])

/-- Under an order of the headers that holds along all the searches, no merge is endless, and the
headers stay within the order. -/
theorem searchAll_sound {R : BlockId → BlockId → Prop} (hrange : graph.InRange)
    (hstarts : ∀ start ∈ starts, start < graph.size)
    (hord : ∀ start ∈ starts, graph.HeaderOrder start R) (hlinks : graph.LinksInRange links)
    (hsound : (Search.fresh graph links).Sound R) :
    (Search.fresh graph (graph.searchAll links starts).value).Sound R ∧
      Quiet (graph.searchAll links starts).events := by
  induction starts generalizing links with
  | nil => exact ⟨hsound, by simp [searchAll, Quiet]⟩
  | cons start rest ih =>
    have hstart := hstarts start List.mem_cons_self
    have hrun := sound_searchOf hrange hstart (hord start List.mem_cons_self) hlinks hsound
    -- the next search starts from the links of this one
    have hrest := ih (fun start hmem => hstarts start (List.mem_cons_of_mem _ hmem))
      (fun start hmem => hord start (List.mem_cons_of_mem _ hmem))
      (linksInRange_searchOf hrange hstart hlinks) hrun.1
    rw [value_searchAll_cons, events_searchAll_cons]
    exact ⟨hrest.1, quiet_append.2 ⟨hrun.2, hrest.2⟩⟩

/-- One of the searches is from `start`, and no header that it has found is lost. -/
theorem searchAll_of_mem {P : Array LoopLinks → Prop} (hrange : graph.InRange)
    (hstarts : ∀ start ∈ starts, start < graph.size) (hlinks : graph.LinksInRange links)
    (hfirst : P links)
    (hsearch : ∀ start ∈ starts, ∀ links, graph.LinksInRange links → P links →
      P (graph.searchOf start links).value.links)
    (hquiet : Quiet (graph.searchAll links starts).events) (hmem : start ∈ starts) :
    ∃ before, graph.LinksInRange before ∧ P before ∧ Quiet (graph.searchOf start before).events ∧
      (graph.searchOf start before).value.Grows
        (.fresh graph (graph.searchAll links starts).value) := by
  induction starts generalizing links with
  | nil => cases hmem
  | cons first rest ih =>
    have hfirstlt := hstarts first List.mem_cons_self
    have hrest := fun start hmem => hstarts start (List.mem_cons_of_mem first hmem)
    have hlinks' := linksInRange_searchOf hrange hfirstlt hlinks
    rw [events_searchAll_cons, quiet_append] at hquiet
    -- the first search is the one, or it is among the later ones
    rcases List.mem_cons.mp hmem with rfl | hmem
    · exact ⟨links, hlinks, hfirst, hquiet.1, grows_searchAll hrange hrest hlinks' hquiet.2⟩
    · exact ih hrest hlinks' (hsearch first List.mem_cons_self links hlinks hfirst)
        (fun start hmem => hsearch start (List.mem_cons_of_mem _ hmem)) hquiet.2 hmem

end SearchAll

/-! ## The analysed graph -/

/-- The headers that the searches of all starts find. -/
def found (graph : Graph) : Traced (Array LoopLinks) :=
  graph.searchAll (Array.replicate graph.size {}) graph.starts

/-- The header of a block that the searches have found. -/
def foundHeader? (graph : Graph) : BlockId → Option BlockId :=
  (Search.fresh graph graph.found.value).header?

/-- Before the first search no block has a header. -/
theorem sound_replicate (graph : Graph) (R : BlockId → BlockId → Prop) :
    (Search.fresh graph (Array.replicate graph.size {})).Sound R := by
  intro b header hb
  simp only [Search.fresh, Search.header?, Array.getElem?_replicate] at hb
  split at hb <;> simp at hb

theorem linksInRange_replicate (graph : Graph) :
    graph.LinksInRange (Array.replicate graph.size {}) :=
  ⟨by simp, graph.sound_replicate _⟩

theorem linksInRange_found (hrange : graph.InRange) : graph.LinksInRange graph.found.value :=
  searchAll_induction graph.linksInRange_replicate fun start hstart _ hlinks =>
    linksInRange_searchOf hrange (hrange.starts start hstart) hlinks

/-- A search sets the first of the two links only; the second one is for loops of a single block. -/
theorem Run.secondary_eq {s t : Stage} (hrun : graph.Run s t) :
    t.search.links.map (·.secondary?) = s.search.links.map (·.secondary?) := by
  induction hrun with
  | refl => rfl
  | tail _ hstep ih =>
    rw [← ih]
    cases hstep with
    | enter _ _ => rfl
    | meet _ _ houtcome => exact houtcome.secondary_eq
    | leave _ houtcome => exact houtcome.secondary_eq

/-- No search sets a secondary header. -/
theorem secondary_found (hrange : graph.InRange) :
    graph.found.value.map (·.secondary?) = Array.replicate graph.size none := by
  have hfound : graph.LinksInRange graph.found.value ∧
      graph.found.value.map (·.secondary?) = Array.replicate graph.size none := by
    refine searchAll_induction (P := fun links => graph.LinksInRange links ∧
      links.map (·.secondary?) = Array.replicate graph.size none)
      ⟨graph.linksInRange_replicate, by simp⟩ ?_
    rintro start hstart links ⟨hlinks, hsecondary⟩
    have hlt := hrange.starts start hstart
    exact ⟨linksInRange_searchOf hrange hlt hlinks,
      (searchOf_run hrange hlt hlinks).secondary_eq.trans hsecondary⟩
  exact hfound.2

theorem value_analyzeLoops (graph : Graph) :
    graph.analyzeLoops.value = graph.withNesting (graph.linkSelfLoops graph.found.value) := rfl

theorem events_analyzeLoops (graph : Graph) : graph.analyzeLoops.events = graph.found.events := by
  simp [analyzeLoops, nesting, found]

@[simp] theorem size_withNesting (graph : Graph) (links : Array LoopLinks) :
    (graph.withNesting links).size = graph.size := by
  simp [withNesting, mapNodes, size]

@[simp] theorem successors_withNesting (graph : Graph) (links : Array LoopLinks) (id : BlockId) :
    (graph.withNesting links).successors id = graph.successors id := by
  simp only [withNesting, mapNodes, successors, Array.getElem?_mapIdx]
  cases graph.nodes[id]? <;> rfl

/-- The links of a block: those that the searches have found, unless it is its own successor. -/
theorem getElem?_linkSelfLoops_found (hrange : graph.InRange) {id : BlockId}
    (hid : id < graph.size) :
    (graph.linkSelfLoops graph.found.value)[id]? = some
      (if id ∈ graph.successors id then
        { primary? := some id, secondary? := graph.foundHeader? id }
      else { primary? := graph.foundHeader? id, secondary? := none }) := by
  have hlt : id < graph.found.value.size := (linksInRange_found hrange).size ▸ hid
  -- the searches leave the second link empty
  have hsecondary : graph.found.value[id].secondary? = none := by
    have h := congrArg (·[id]?) (secondary_found hrange)
    simpa [hid, hlt] using h
  simp only [linkSelfLoops, Array.getElem?_mapIdx, Array.getElem?_eq_getElem hlt, Option.map_some,
    foundHeader?, Search.fresh, Search.header?, Option.bind_some]
  congr 2
  rw [← hsecondary]

/-- A block that is its own successor is its own header, and what was found is its outer header. -/
theorem linksOf_analyzeLoops (hrange : graph.InRange) (id : BlockId) :
    graph.analyzeLoops.value.linksOf id =
      if id ∈ graph.successors id then
        { primary? := some id, secondary? := graph.foundHeader? id }
      else { primary? := graph.foundHeader? id, secondary? := none } := by
  -- beyond the graph there are neither links nor successors
  by_cases hid : id < graph.size
  · obtain ⟨node, hnode⟩ := graph.exists_node hid
    have hlinks := getElem?_linkSelfLoops_found hrange hid
    simp [value_analyzeLoops, withNesting, mapNodes, linksOf, hnode, hlinks,
      Array.getD_eq_getD_getElem?]
  · have hid := Nat.le_of_not_lt hid
    have hnone : graph.foundHeader? id = none := by
      have hsize : graph.found.value.size ≤ id := (linksInRange_found hrange).size ▸ hid
      simp [foundHeader?, Search.fresh, Search.header?, Array.getElem?_eq_none hsize]
    simp [value_analyzeLoops, withNesting, mapNodes, linksOf, successors_of_size_le hid, hnone,
      Array.getElem?_eq_none hid]

/-- The outer header of a block is the one that the searches found. -/
theorem outerHeader?_analyzeLoops (hrange : graph.InRange) (id : BlockId) :
    graph.analyzeLoops.value.outerHeader? id = graph.foundHeader? id := by
  have hself : graph.foundHeader? id ≠ some id :=
    fun h => ((linksInRange_found hrange).headers id id h).2 rfl
  by_cases hid : id ∈ graph.successors id
  · simp [outerHeader?, linksOf_analyzeLoops hrange, hid]
  · simp [outerHeader?, linksOf_analyzeLoops hrange, hid, hself]

/-- A block is marked as a header if a link goes to it. -/
theorem isLoopHeader_withNesting (graph : Graph) (links : Array LoopLinks) (id : BlockId) :
    (graph.withNesting links).isLoopHeader id = (decide (id < graph.size) &&
      links.any fun l => l.primary? == some id || l.secondary? == some id) := by
  unfold withNesting mapNodes isLoopHeader
  rw [Array.getElem?_mapIdx]
  by_cases hid : id < graph.size
  · obtain ⟨node, hnode⟩ := graph.exists_node hid
    rw [hnode, decide_eq_true hid]
    rfl
  · rw [Array.getElem?_eq_none (Nat.le_of_not_lt hid), decide_eq_false hid]
    rfl

/-- A block is a header if a link leads to it. -/
theorem isLoopHeader_withNesting_iff (links : Array LoopLinks) (header : BlockId) :
    (graph.withNesting links).isLoopHeader header = true ↔ header < graph.size ∧
      ∃ (b : Nat) (l : LoopLinks), links[b]? = some l ∧
        (l.primary? = some header ∨ l.secondary? = some header) := by
  rw [isLoopHeader_withNesting, Bool.and_eq_true, decide_eq_true_iff, Array.any_eq_true']
  refine and_congr_right fun _ => ?_
  constructor
  · rintro ⟨l, hmem, hlink⟩
    obtain ⟨b, hl⟩ := Array.mem_iff_getElem?.mp hmem
    exact ⟨b, l, hl, by simpa using hlink⟩
  · rintro ⟨b, l, hl, hlink⟩
    exact ⟨l, Array.mem_of_getElem? hl, by simpa using hlink⟩

/-- A header is a block that is its own successor, or that the searches have found to be one. -/
theorem isLoopHeader_analyzeLoops (hrange : graph.InRange) (header : BlockId) :
    graph.analyzeLoops.value.isLoopHeader header = true ↔ header < graph.size ∧
      (header ∈ graph.successors header ∨ ∃ b, graph.foundHeader? b = some header) := by
  rw [value_analyzeLoops, isLoopHeader_withNesting_iff]
  refine and_congr_right fun hheader => ⟨?_, ?_⟩
  · rintro ⟨b, l, hl, hlink⟩
    have hb : b < graph.size := by
      have hlt := (Array.getElem?_eq_some_iff.mp hl).1
      simpa [linkSelfLoops, (linksInRange_found hrange).size] using hlt
    -- the links are those that were found, but for the blocks that are their own successors
    obtain rfl := Option.some.inj ((getElem?_linkSelfLoops_found hrange hb).symm.trans hl)
    split at hlink
    next hself =>
      rcases hlink with heq | hfound
      · exact .inl (Option.some.inj heq ▸ hself)
      · exact .inr ⟨b, hfound⟩
    next =>
      rcases hlink with hfound | hnone
      · exact .inr ⟨b, hfound⟩
      · cases hnone
  · rintro (hself | ⟨b, hb⟩)
    · refine ⟨header, _, getElem?_linkSelfLoops_found hrange hheader, ?_⟩
      rw [if_pos hself]
      exact .inl rfl
    · have hlt : b < graph.size :=
        (linksInRange_found hrange).size ▸ Search.lt_size_of_header? hb
      refine ⟨b, _, getElem?_linkSelfLoops_found hrange hlt, ?_⟩
      split
      next => exact .inr hb
      next => exact .inl hb

/-- The header chains go along the headers that the searches have found. -/
theorem outer_analyzeLoops (hrange : graph.InRange) (b header : BlockId) :
    graph.analyzeLoops.value.Outer b header ↔
      (Search.fresh graph graph.found.value).Above b header := by
  unfold Outer Search.Above
  simp only [outerHeader?_analyzeLoops hrange]
  exact Iff.rfl

end RamOverlay.Graph
