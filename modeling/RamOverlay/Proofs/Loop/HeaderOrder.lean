import RamOverlay.Proofs.Loop.Stage

/-!
# Headers along a search

What a search does to the headers of the blocks, with the order of the headers as a parameter.

* **`Step.grows`, `Run.grows`**: a search that reports no endless merge takes no header away.
* **`HeaderOrder`**: a relation that tells which blocks may be headers of which, and that orders the
  headers of a block along the paths of the search.
* **`Step.sound`, `Run.sound`**: under such a relation no merge is endless, the headers stay within
  the relation, and the headers of a block are settled once it is left.
-/

namespace RamOverlay.Graph

variable {graph : Graph} {start : BlockId} {R : BlockId → BlockId → Prop}

/-- No merge of header chains is reported as endless. -/
def Quiet (events : List Event) : Prop :=
  ∀ unit line, Event.endlessHeaderMerge unit line ∉ events

theorem quiet_append {events more : List Event} :
    Quiet (events ++ more) ↔ Quiet events ∧ Quiet more := by
  simp only [Quiet, List.mem_append, not_or, forall_and]

/-- Tagging that does not run out of steps tells nothing at all. -/
theorem events_eq_nil_of_quiet {path : Path} {id header : BlockId} {search : Search}
    (h : Quiet (graph.tagHeader path id header search).events) :
    (graph.tagHeader path id header search).events = [] := by
  unfold tagHeader at h ⊢
  split
  next => rfl
  next hne =>
    rw [if_neg hne] at h
    dsimp only at h ⊢
    split
    next => rfl
    next hend =>
      -- the only event there is would be the warning
      rw [if_neg hend] at h
      exact absurd (List.mem_singleton_self _) (h graph.unit (graph.lineOf id))

/-! ## No header is lost -/

section Grows

variable {left : Bool} {path : Path} {id next : BlockId} {search : Search} {effect : Traced Search}

/-- The header that comes of an edge becomes a header of `id`. -/
theorem Outcome.grows (h : graph.Outcome left path id next search effect)
    (hheaders : search.Sound fun header _ => header < search.links.size)
    (hid : id < search.links.size) (hnext : next < search.links.size)
    (hquiet : Quiet effect.events) :
    search.Grows effect.value ∧ (next ∈ path → id = next ∨ effect.value.Above id next) ∧
      ∀ header, search.header? next = some header → next ∉ path →
        (left = true ∨ header ∈ path) → id = header ∨ effect.value.Above id header := by
  cases h with
  | back hon =>
    have hgrows := tagHeader_grows hheaders hid hnext (events_eq_nil_of_quiet hquiet)
    exact ⟨hgrows.1, fun _ => hgrows.2, fun _ _ hoff => absurd hon hoff⟩
  | @hand header hoff hheader _ =>
    have hgrows := tagHeader_grows hheaders hid (hheaders next header hheader)
      (events_eq_nil_of_quiet hquiet)
    refine ⟨hgrows.1, fun hon => absurd hon hoff, fun header' hheader' _ _ => ?_⟩
    -- the header of `next` is handed on to `id`
    obtain rfl : header = header' := Option.some.inj (hheader.symm.trans hheader')
    exact hgrows.2
  | plain hoff hheader =>
    refine ⟨fun _ _ h => h, fun hon => absurd hon hoff, fun header' hheader' _ _ => ?_⟩
    simp [hheader] at hheader'
  | @lost header hoff hheader hleft hlost =>
    refine ⟨fun _ _ h => h, fun hon => absurd hon hoff, fun header' hheader' _ hon => ?_⟩
    obtain rfl : header = header' := Option.some.inj (hheader.symm.trans hheader')
    -- a lost header is off the path, and the edge has not been left
    rcases hon with hon | hon
    · simp [hleft] at hon
    · exact absurd hon hlost

end Grows

/-- A step takes no header away from a block. -/
theorem Step.grows (hrange : graph.InRange) {s t : Stage} (hstep : graph.Step s t)
    (hvalid : s.Valid graph) (hquiet : Quiet t.events) : s.search.Grows t.search := by
  have hheaders := hvalid.headers.mono fun header b h => hvalid.size ▸ h.1
  cases hstep with
  | enter _ _ => exact fun _ _ h => h
  | @meet id next done rest stack search events effect hedges hold houtcome =>
    -- what the edge does is all that changes the links
    have hid : id < graph.size := hvalid.lt_size List.mem_cons_self
    have hnext : next < graph.size := hrange.successors id next (by simp [hedges])
    exact (houtcome.grows hheaders (hvalid.size ▸ hid) (hvalid.size ▸ hnext)
      (quiet_append.1 hquiet).2).1
  | @leave id next done rest stack search events effect hedges houtcome =>
    have hid : id < graph.size := hvalid.lt_size (List.mem_cons_of_mem next List.mem_cons_self)
    have hnext : next < graph.size := hvalid.lt_size List.mem_cons_self
    exact (houtcome.grows hheaders (hvalid.size ▸ hid) (hvalid.size ▸ hnext)
      (quiet_append.1 hquiet).2).1

/-- A warning stays, so a quiet step had a quiet start. -/
theorem Step.quiet {s t : Stage} (hstep : graph.Step s t) (hquiet : Quiet t.events) :
    Quiet s.events := by
  cases hstep with
  | enter _ _ => exact hquiet
  | meet _ _ _ => exact (quiet_append.1 hquiet).1
  | leave _ _ => exact (quiet_append.1 hquiet).1

/-- So does a run. -/
theorem Run.grows (hrange : graph.InRange) {s t : Stage} (hrun : graph.Run s t)
    (hvalid : s.Valid graph) (hquiet : Quiet t.events) : s.search.Grows t.search := by
  induction hrun with
  | refl => exact fun _ _ h => h
  | tail hrun hstep ih =>
    have hquiet' := hstep.quiet hquiet
    exact (ih hquiet').trans (hstep.grows hrange (Run.valid hrange hrun hvalid) hquiet)

/-! ## Ordered headers -/

/-- `R header b` tells that `header` may be a header of `b`. It holds of the edges back to the path,
is handed down along edges, and orders the headers of a block along the path to it. -/
structure HeaderOrder (graph : Graph) (start : BlockId) (R : BlockId → BlockId → Prop) : Prop where
  back : ∀ id path next, graph.TreePath start (id :: path) → next ∈ graph.successors id →
    next ∈ id :: path → id = next ∨ R next id
  hand : ∀ id path next header, graph.TreePath start (id :: path) → next ∈ graph.successors id →
    R header next → header ∈ id :: path → id = header ∨ R header id
  below : ∀ b path header, graph.TreePath start (b :: path) → R header b → header ∈ path
  nested : ∀ b p inner q outer, graph.TreePath start (b :: (p ++ inner :: q)) → outer ∈ q →
    R inner b → R outer b → R outer inner

/-- Along a path of the search the relation is what merging needs. -/
theorem HeaderOrder.ordered (h : graph.HeaderOrder start R) {path : Path}
    (hpath : graph.TreePath start path) : Ordered path R where
  nodup := hpath.nodup
  below _ b q heq header hR := h.below b q header (heq ▸ hpath).suffix hR
  nested _ b q inner r heq outer houter hinner hout :=
    h.nested b q inner r outer (heq ▸ hpath).suffix houter hinner hout

section Sound

variable {left : Bool} {path : Path} {id next : BlockId} {search : Search} {effect : Traced Search}

/-- What an edge does keeps the links in order, and touches the blocks of the path only. -/
theorem Outcome.sound_of_order (hord : graph.HeaderOrder start R)
    (h : graph.Outcome left (id :: path) id next search effect)
    (hpath : graph.TreePath start (id :: path)) (hedge : next ∈ graph.successors id)
    (hchild : left = true → graph.TreePath start (next :: id :: path))
    (hlength : (id :: path).length ≤ graph.size) (hsound : search.Sound R) :
    effect.value.Sound R ∧ Quiet effect.events ∧
      ∀ b ∉ id :: path, effect.value.header? b = search.header? b := by
  -- both kinds of edge that tag a header do so with one that the order allows
  have htag : ∀ header, id = header ∨ R header id →
      (graph.tagHeader (id :: path) id header search).value.Sound R ∧
        Quiet (graph.tagHeader (id :: path) id header search).events ∧
        ∀ b ∉ id :: path,
          (graph.tagHeader (id :: path) id header search).value.header? b = search.header? b := by
    intro header hR
    obtain ⟨hevents, hrest⟩ := tagHeader_ordered (hord.ordered hpath) hsound
      List.mem_cons_self hR hlength
    exact ⟨hrest.1, by simp [hevents, Quiet], hrest.2⟩
  cases h with
  | back hon => exact htag next (hord.back id path next hpath hedge hon)
  | @hand header hoff hheader hon =>
    have hR := hsound next header hheader
    have hmem : header ∈ id :: path := by
      rcases hon with hleft | hon
      · -- what is left had its header below it on the path
        exact hord.below next (id :: path) header (hchild hleft) hR
      · exact hon
    exact htag header (hord.hand id path next header hpath hedge hR hmem)
  | plain _ _ => exact ⟨hsound, by simp [Quiet], fun _ _ => rfl⟩
  | lost _ _ _ _ => exact ⟨hsound, by simp [Quiet], fun _ _ => rfl⟩

end Sound

/-- One step keeps the headers within the order, and changes those of blocks on the path only. -/
theorem Step.sound (hrange : graph.InRange) (hord : graph.HeaderOrder start R) {s t : Stage}
    (hstep : graph.Step s t) (hvalid : s.Valid graph) (hexplored : s.Explored graph start)
    (hsound : s.search.Sound R) (hquiet : Quiet s.events) :
    t.search.Sound R ∧ Quiet t.events ∧
      ∀ b ∉ s.path, t.search.header? b = s.search.header? b := by
  have hlength := hvalid.length_le
  have hvalid' := hstep.valid hrange hvalid
  cases hstep with
  | enter _ _ => exact ⟨hsound, hquiet, fun _ _ => rfl⟩
  | @meet id next done rest stack search events effect hedges hold houtcome =>
    -- the edge goes back, or to a block that was left before
    -- the search comes back from `next` to the path below it
    obtain ⟨hsound', hquiet', hframe⟩ := houtcome.sound_of_order hord hexplored.tree
      (by simp [hedges]) (by simp) hlength hsound
    exact ⟨hsound', quiet_append.2 ⟨hquiet, hquiet'⟩, hframe⟩
  | @leave id next done rest stack search events effect hedges houtcome =>
    obtain ⟨hsound', hquiet', hframe⟩ := houtcome.sound_of_order hord
      (hexplored.tree.suffix (p := [next])) (by simp [hedges]) (fun _ => hexplored.tree)
      hvalid'.length_le hsound
    exact ⟨hsound', quiet_append.2 ⟨hquiet, hquiet'⟩,
      fun b hb => hframe b fun hm => hb (List.mem_cons_of_mem next hm)⟩

/-- A run keeps the links in order. -/
theorem Run.sound (hrange : graph.InRange) (hord : graph.HeaderOrder start R) {s t : Stage}
    (hrun : graph.Run s t) (hvalid : s.Valid graph) (hexplored : s.Explored graph start)
    (hsound : s.search.Sound R) (hquiet : Quiet s.events) : t.search.Sound R ∧ Quiet t.events := by
  induction hrun with
  | refl => exact ⟨hsound, hquiet⟩
  | tail hrun hstep ih =>
    obtain ⟨hsound', hquiet', _⟩ := hstep.sound hrange hord (Run.valid hrange hrun hvalid)
      (Run.explored hrange hrun hvalid hexplored) ih.1 ih.2
    exact ⟨hsound', hquiet'⟩

end RamOverlay.Graph
