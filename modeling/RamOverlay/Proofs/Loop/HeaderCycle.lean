import Mathlib.Data.Fintype.Basic
import Mathlib.Data.Fintype.Card
import Mathlib.Data.Fintype.EquivFin
import RamOverlay.Proofs.Loop.SingleEntry

/-!
# Cycles among the headers

The headers above a block come back to the block if and only if two searches enter a cycle at
different blocks.

* **`Stage.Handed`**: a search hands the end of an edge back to its path down to all blocks between,
  whatever other searches have found.
* **`Crossing`**: the last edge of a path of one search is an edge back to the path of another one.
  Each crossing leads to one further inside (`Crossing.inner`), so there is none in a graph without
  cycles among the headers.
* **`headerChains_iff_singleEntry`**: the header chains are those of cycles, without repetition, if
  and only if all searches enter a cycle at one block.
-/

namespace RamOverlay.Graph

variable {graph : Graph} {start s s' : BlockId}

/-! ## Headers are handed down the path -/

/-- The end of a followed edge back to the path is a header of the beginning, and of the blocks that
the search has come back to since. -/
structure Stage.Handed (graph : Graph) (start : BlockId) (stage : Stage) : Prop where
  followed : ∀ frame ∈ stage.stack, ∀ header ∈ frame.2, ∀ path,
    graph.TreePath start (frame.1 :: path) → header ∈ path → stage.search.Above frame.1 header
  left : ∀ u path, stage.search.visited.contains u = true → u ∉ stage.path →
    graph.TreePath start (u :: path) → ∀ header ∈ graph.successors u, ∀ p t q,
      u :: path = p ++ t :: q → header ∈ q → (∀ c ∈ p, c ∉ stage.path) →
        stage.search.Above t header

/-- A block that is about to be left has been handed all that goes down from a block above it. -/
theorem Stage.Handed.above_left {id next : BlockId} {done : List BlockId}
    {stack : List (BlockId × List BlockId)} {search : Search} {events : List Event}
    (h : Stage.Handed graph start
      ⟨(next, graph.successors next) :: (id, done) :: stack, search, events⟩)
    {u header : BlockId} {path p q : Path} (hentered : search.visited.contains u = true)
    (hoff : u ∉ id :: stack.map Prod.fst) (hu : graph.TreePath start (u :: path))
    (hedge : header ∈ graph.successors u) (hsplit : u :: path = p ++ next :: q) (hmem : header ∈ q)
    (hp : ∀ c ∈ p, c ∉ id :: stack.map Prod.fst) : search.Above next header := by
  by_cases hunext : u = next
  · -- the edge is one of those that the search has followed from here
    subst hunext
    refine h.followed _ List.mem_cons_self header hedge path hu ?_
    have hin : header ∈ u :: path := by
      rw [hsplit]
      exact List.mem_append_right p (List.mem_cons_of_mem u hmem)
    refine (List.mem_cons.mp hin).resolve_left fun heq => ?_
    exact (hsplit ▸ hu).not_below (List.mem_append_right p List.mem_cons_self) (heq ▸ hmem)
  · refine h.left u path hentered ?_ hu header hedge p next q hsplit hmem fun c hc hin => ?_
    · exact fun hin => (List.mem_cons.mp hin).elim hunext hoff
    · rcases List.mem_cons.mp hin with rfl | hin
      · exact (hsplit ▸ hu).not_mem_of_above hc List.mem_cons_self
      · exact hp c hc hin

/-- What is handed down from a block that has just been left comes to the block below. -/
theorem Stage.Handed.leave {id next : BlockId} {done : List BlockId}
    {stack : List (BlockId × List BlockId)} {search search' : Search} {events : List Event}
    (h : Stage.Handed graph start
      ⟨(next, graph.successors next) :: (id, done) :: stack, search, events⟩)
    (hpath : graph.TreePath start (next :: id :: stack.map Prod.fst))
    (hgrows : search.Grows search')
    (hhand : ∀ header, search.header? next = some header →
      id = header ∨ search'.Above id header)
    {u t header : BlockId} {path p q : Path} (hentered : search.visited.contains u = true)
    (hoff : u ∉ id :: stack.map Prod.fst) (hu : graph.TreePath start (u :: path))
    (hedge : header ∈ graph.successors u) (hsplit : u :: path = p ++ t :: q) (hmem : header ∈ q)
    (hp : ∀ c ∈ p, c ∉ id :: stack.map Prod.fst) : search'.Above t header := by
  by_cases hnext : next ∈ p
  · -- `t` is below `next`, so it is the block that the search comes back to
    obtain ⟨p₁, p₂, rfl⟩ := List.append_of_mem hnext
    have hsplit₁ : u :: path = p₁ ++ next :: (p₂ ++ t :: q) := by simpa using hsplit
    have hbelow : p₂ ++ t :: q = id :: stack.map Prod.fst :=
      (hsplit₁ ▸ hu).suffix.unique_path hpath
    have habove := h.above_left hentered hoff hu hedge hsplit₁
      (List.mem_append_right p₂ (List.mem_cons_of_mem t hmem))
      fun c hc => hp c (List.mem_append_left _ hc)
    obtain ⟨hp₂, rfl, rfl⟩ : p₂ = [] ∧ t = id ∧ q = stack.map Prod.fst := by
      cases p₂ with
      | nil => exact ⟨rfl, List.cons_eq_cons.mp hbelow⟩
      | cons c p₂ =>
        have hc : c = id := (List.cons_eq_cons.mp hbelow).1
        exact absurd (hc ▸ List.mem_cons_self) (hp c (by simp))
    obtain ⟨first, hfirst, hrest⟩ := Relation.TransGen.head'_iff.1 habove
    rcases hhand first hfirst with rfl | hfirst
    · rcases Relation.reflTransGen_iff_eq_or_transGen.1 hrest with rfl | hrest
      · exact absurd hmem (List.nodup_cons.mp (TreePath.suffix (p := [next]) hpath).nodup).1
      · exact hgrows _ _ hrest
    · rcases Relation.reflTransGen_iff_eq_or_transGen.1 hrest with rfl | hrest
      · exact hfirst
      · exact Relation.TransGen.trans hfirst (hgrows _ _ hrest)
  · by_cases hunext : u = next
    · subst hunext
      cases p with
      | nil =>
        obtain ⟨rfl, rfl⟩ := List.cons_eq_cons.mp hsplit
        exact hgrows _ _ (h.above_left hentered hoff hu hedge hsplit hmem hp)
      | cons c p => exact absurd (List.cons_eq_cons.mp hsplit).1 fun heq => hnext (by simp [heq])
    · refine hgrows _ _ (h.left u path hentered ?_ hu header hedge p t q hsplit hmem ?_)
      · exact fun hin => (List.mem_cons.mp hin).elim hunext hoff
      · intro c hc hin
        rcases List.mem_cons.mp hin with rfl | hin
        · exact hnext hc
        · exact hp c hc hin

/-- A step keeps what is handed down. -/
theorem Step.handed (hrange : graph.InRange) {s t : Stage} (hstep : graph.Step s t)
    (hvalid : s.Valid graph) (hexplored : s.Explored graph start) (hquiet : Quiet t.events)
    (h : s.Handed graph start) : t.Handed graph start := by
  have hgrows := hstep.grows hrange hvalid hquiet
  have hheaders := hvalid.headers.mono fun header b h => hvalid.size ▸ h.1
  cases hstep with
  | @enter id next done rest stack search events hedges hnew =>
    refine ⟨fun frame hframe header hheader path hpath hmem => ?_,
      fun u path hu hoff hpath header hedge p t q hsplit hmem hp => ?_⟩
    · rcases List.mem_cons.mp hframe with rfl | hframe
      · cases hheader
      · exact h.followed frame hframe header hheader path hpath hmem
    · have hunext : u ≠ next := fun heq => hoff (heq ▸ List.mem_cons_self)
      have hu : search.visited.contains u = true := by simpa [hunext] using hu
      exact h.left u path hu (fun hin => hoff (List.mem_cons_of_mem next hin)) hpath header hedge
        p t q hsplit hmem fun c hc hin => hp c hc (List.mem_cons_of_mem next hin)
  | @meet id next done rest stack search events effect hedges hold houtcome =>
    have hid : id < graph.size := hvalid.lt_size List.mem_cons_self
    have hnext : next < graph.size := hrange.successors id next (by simp [hedges])
    obtain ⟨_, hback, _⟩ := houtcome.grows hheaders (hvalid.size ▸ hid) (hvalid.size ▸ hnext)
      (quiet_append.1 hquiet).2
    refine ⟨fun frame hframe header hheader path hpath hmem => ?_,
      fun u path hu hoff hpath header hedge p t q hsplit hmem hp => ?_⟩
    · rcases List.mem_cons.mp hframe with rfl | hframe
      · rcases List.mem_append.mp hheader with hheader | hheader
        · exact hgrows _ _ (h.followed _ List.mem_cons_self header hheader path hpath hmem)
        · -- the edge that is followed now goes back to the path
          obtain rfl := List.mem_singleton.mp hheader
          obtain rfl := hpath.unique_path hexplored.tree
          refine (hback (List.mem_cons_of_mem id hmem)).resolve_left ?_
          rintro rfl
          exact (List.nodup_cons.mp hpath.nodup).1 hmem
      · exact hgrows _ _ (h.followed frame (List.mem_cons_of_mem _ hframe) header hheader path
          hpath hmem)
    · exact hgrows _ _ (h.left u path (houtcome.visited_eq ▸ hu) hoff hpath header hedge p t q
        hsplit hmem hp)
  | @leave id next done rest stack search events effect hedges houtcome =>
    have hid : id < graph.size := hvalid.lt_size (List.mem_cons_of_mem next List.mem_cons_self)
    have hnext : next < graph.size := hvalid.lt_size List.mem_cons_self
    have hoffpath : next ∉ id :: stack.map Prod.fst := (List.nodup_cons.mp hvalid.nodup).1
    obtain ⟨_, _, hhand⟩ := houtcome.grows hheaders (hvalid.size ▸ hid) (hvalid.size ▸ hnext)
      (quiet_append.1 hquiet).2
    refine ⟨fun frame hframe header hheader path hpath hmem => ?_,
      fun u path hu hoff hpath header hedge p t q hsplit hmem hp => ?_⟩
    · rcases List.mem_cons.mp hframe with rfl | hframe
      · rcases List.mem_append.mp hheader with hheader | hheader
        · exact hgrows _ _ (h.followed _ (List.mem_cons_of_mem _ List.mem_cons_self) header hheader
            path hpath hmem)
        · -- the edge led to the block that is left, which is not below `id`
          obtain rfl := List.mem_singleton.mp hheader
          obtain rfl := hpath.unique_path (TreePath.suffix (p := [header]) hexplored.tree)
          exact absurd (List.mem_cons_of_mem id hmem) hoffpath
      · exact hgrows _ _ (h.followed frame (List.mem_cons_of_mem _ (List.mem_cons_of_mem _ hframe))
          header hheader path hpath hmem)
    · exact h.leave hexplored.tree hgrows
        (fun header hheader => hhand header hheader hoffpath (.inl rfl))
        (houtcome.visited_eq ▸ hu) hoff hpath hedge hsplit hmem hp

/-- So does a run without warnings. -/
theorem Run.handed (hrange : graph.InRange) {s t : Stage} (hrun : graph.Run s t)
    (hvalid : s.Valid graph) (hexplored : s.Explored graph start) (hquiet : Quiet t.events)
    (h : s.Handed graph start) : t.Handed graph start := by
  induction hrun with
  | refl => exact h
  | tail hrun hstep ih =>
    exact hstep.handed hrange (Run.valid hrange hrun hvalid)
      (Run.explored hrange hrun hvalid hexplored) hquiet (ih (hstep.quiet hquiet))

/-- The search from a start has a path to every block that the start reaches. -/
theorem exists_treePath (hrange : graph.InRange) (hstart : start < graph.size) {b : BlockId}
    (hreach : graph.Reaches start b) : ∃ path, graph.TreePath start (b :: path) := by
  have hrun := searchOf_run hrange hstart graph.linksInRange_replicate
  have hvalid := Stage.valid_first hstart graph.linksInRange_replicate
  have hexplored := Run.explored hrange hrun hvalid (Stage.explored_first hstart _)
  exact hexplored.entered b
    ((hexplored.contains_iff rfl (Run.valid hrange hrun hvalid) b).2 hreach)

/-- At the end, the target of an edge back to the path is a header of all blocks above it. -/
theorem above_of_back (hrange : graph.InRange) (hquiet : Quiet graph.found.events)
    (hs : s ∈ graph.starts) {u t header : BlockId} {path p q : Path}
    (hpath : graph.TreePath s (u :: path)) (hedge : header ∈ graph.successors u)
    (hsplit : u :: path = p ++ t :: q) (hmem : header ∈ q) :
    (Search.fresh graph graph.found.value).Above t header := by
  obtain ⟨links, hlinks, _, hquiet', hgrows⟩ := searchAll_of_mem (P := fun _ => True) hrange
    hrange.starts graph.linksInRange_replicate trivial (fun _ _ _ _ _ => trivial) hquiet hs
  have hlt := hrange.starts s hs
  have hrun := searchOf_run hrange hlt hlinks
  have hvalid := Stage.valid_first hlt hlinks
  have hexplored := Stage.explored_first hlt links
  have hfirst : (Stage.first graph s links).Handed graph s := by
    refine ⟨fun frame hframe header hheader => ?_, fun u path hu hoff => ?_⟩
    · rw [List.mem_singleton.mp hframe] at hheader
      cases hheader
    · have hus : u = s := by simpa [Stage.first, hlt] using hu
      exact absurd (hus ▸ List.mem_singleton_self s) hoff
  have hhanded := Run.handed hrange hrun hvalid hexplored hquiet' hfirst
  have hentered := ((Run.explored hrange hrun hvalid hexplored).contains_iff rfl
    (Run.valid hrange hrun hvalid) u).2 (hpath.reaches hpath.getLast_mem)
  -- the start is below `header`, so it is not above `t`
  have hbelow : s ∈ t :: q := (hsplit ▸ hpath).suffix.getLast_mem
  have hp : ∀ c ∈ p, c ∉ [s] := fun c hc hcs => by
    obtain rfl := List.mem_singleton.mp hcs
    exact (hsplit ▸ hpath).not_mem_of_above hc hbelow
  have hus : u ∉ [s] := fun hcs => by
    obtain rfl := List.mem_singleton.mp hcs
    obtain rfl := hpath.unique_path .start
    cases p with
    | nil =>
      obtain ⟨_, rfl⟩ := List.cons_eq_cons.mp hsplit
      cases hmem
    | cons c p => simp at hsplit
  exact hgrows t header (hhanded.left u path hentered hus hpath header hedge p t q hsplit hmem hp)

/-! ## Crossings -/

/-- The search from `s'` enters `header` by an edge that is an edge back to the path for the search
from `s`. -/
def Crossing (graph : Graph) (s s' header : BlockId) : Prop :=
  ∃ v path path', graph.TreePath s (v :: path) ∧ header ∈ path ∧
    graph.TreePath s' (header :: v :: path')

/-- The cycle that the edge closes for one search is entered by the other one above `header`. The
edge by which the first search enters that block is an edge back for the other one. -/
theorem Crossing.inner (hrange : graph.InRange) (hquiet : Quiet graph.found.events)
    (hs : s ∈ graph.starts) (hs' : s' ∈ graph.starts) {header : BlockId}
    (h : graph.Crossing s s' header) :
    ∃ z, graph.Crossing s' s z ∧ (Search.fresh graph graph.found.value).Above z header := by
  obtain ⟨v, path, path', hpath, hmem, hpath'⟩ := h
  obtain ⟨a, c, rfl⟩ := List.append_of_mem hmem
  have hedge : header ∈ graph.successors v := hpath'.edge
  have hpath₁ : graph.TreePath s ((v :: a) ++ header :: c) := hpath
  have hroute : graph.Route header (header :: (v :: a).reverse) v := hpath₁.route rfl
  have hreached : ∀ x ∈ header :: (v :: a).reverse, ∃ p, graph.TreePath s' (x :: p) := by
    intro x hx
    have hheader := hpath'.reaches hpath'.getLast_mem
    exact exists_treePath hrange (hrange.starts s' hs') (hheader.trans (hroute.of_head hx))
  obtain ⟨z, hz, hcommon⟩ := exists_common_ancestor
    (Z := fun x => x ∈ header :: (v :: a).reverse) ⟨header, List.mem_cons_self⟩ hreached
    fun x y hx hy => hroute.around hedge hx hy
  have hne : z ≠ header := by
    rintro rfl
    exact (List.nodup_cons.mp hpath'.nodup).1
      (hcommon v path' hroute.last_mem (TreePath.suffix (p := [z]) hpath'))
  obtain ⟨a₁, a₂, hsplit⟩ : ∃ a₁ a₂, v :: a = a₁ ++ z :: a₂ :=
    List.append_of_mem (List.mem_reverse.mp ((List.mem_cons.mp hz).resolve_left hne))
  have habove : (Search.fresh graph graph.found.value).Above z header := by
    refine above_of_back hrange hquiet hs hpath hedge
      (p := a₁) (q := a₂ ++ header :: c) ?_ (by simp)
    rw [← List.cons_append, hsplit, List.append_assoc, List.cons_append]
  -- the block from which the first search enters `z` is on the cycle, too
  obtain ⟨w, rest, hw⟩ : ∃ w rest, a₂ ++ header :: c = w :: rest := by
    cases a₂ with
    | nil => exact ⟨header, c, rfl⟩
    | cons w a₂ => exact ⟨w, a₂ ++ header :: c, rfl⟩
  have hwcycle : w ∈ header :: (v :: a).reverse := by
    have hin : w ∈ a₂ ++ [header] := List.mem_of_head? (head?_of_cons_eq_append hw.symm)
    rw [hsplit]
    simp only [List.mem_append, List.mem_cons, List.mem_reverse] at hin ⊢
    tauto
  have hzpath : graph.TreePath s (z :: w :: rest) := by
    rw [← hw]
    refine TreePath.suffix (p := a₁) ?_
    rw [hsplit, List.append_assoc, List.cons_append] at hpath₁
    exact hpath₁
  obtain ⟨p, hp⟩ := hreached w hwcycle
  have hzp : z ∈ p := by
    refine (List.mem_cons.mp (hcommon w p hwcycle hp)).resolve_left ?_
    rintro rfl
    exact (List.nodup_cons.mp hzpath.nodup).1 List.mem_cons_self
  exact ⟨z, ⟨w, p, rest, hp, hzp, hzpath⟩, habove⟩

/-- Without cycles among the headers there are no crossings: they would go on inwards forever. -/
theorem not_crossing (hrange : graph.InRange) (hquiet : Quiet graph.found.events)
    (hacyclic : ∀ b, ¬ (Search.fresh graph graph.found.value).Above b b)
    (hs : s ∈ graph.starts) (hs' : s' ∈ graph.starts) (header : BlockId) :
    ¬ graph.Crossing s s' header := by
  have hlt : ∀ {s s' header}, s' ∈ graph.starts → graph.Crossing s s' header →
      header < graph.size := by
    rintro s s' header hs' ⟨_, _, _, _, _, hpath⟩
    exact (hpath.reaches hpath.getLast_mem).lt_size hrange (hrange.starts s' hs')
  let below (a b : Fin graph.size) : Prop :=
    (Search.fresh graph graph.found.value).Above a.1 b.1
  have : IsTrans (Fin graph.size) below := ⟨fun _ _ _ => Relation.TransGen.trans⟩
  have : Std.Irrefl below := ⟨fun b => hacyclic b.1⟩
  intro hcrossing
  generalize hb : (⟨header, hlt hs' hcrossing⟩ : Fin graph.size) = b
  -- the headers above a block are finitely many, and each crossing has one further in
  induction b using (Finite.wellFounded_of_trans_of_irrefl below).induction generalizing
    s s' header with
  | _ b ih =>
    subst hb
    obtain ⟨z, hcrossing', habove⟩ := hcrossing.inner hrange hquiet hs hs'
    exact ih ⟨z, hlt hs hcrossing'⟩ habove hs' hs z hcrossing' rfl

/-! ## Different entries cross -/

/-- The search from a start passes its entry on the way to all blocks of the cycle. -/
theorem EntersAt.mem_path (hrange : graph.InRange) (hs : s ∈ graph.starts) {b entry x : BlockId}
    (h : graph.EntersAt s b entry) (hx : graph.CommonCycle x b) {path : Path}
    (hpath : graph.TreePath s (x :: path)) : entry ∈ x :: path := by
  obtain ⟨p, pathb, q, hb, hsplit, hentry, hq⟩ := h
  have hentrypath : graph.TreePath s (entry :: q) := (hsplit ▸ hb).suffix
  have hreach := hentrypath.reaches hentrypath.getLast_mem
  -- the paths to all blocks of the cycle have one of its blocks in common
  obtain ⟨z, hz, hcommon⟩ := @exists_common_ancestor graph s
    (fun x => graph.CommonCycle x b) ⟨entry, hentry⟩
    (fun y hy => exists_treePath hrange (hrange.starts s hs)
      (hreach.trans (hentry.trans hy.symm).reaches))
    (fun y y' hy hy' => by
      obtain ⟨r, hr⟩ := (hy.trans hy'.symm).reaches
      exact ⟨r, hr, fun c hc => ((hy.trans hy'.symm).of_route hr hc).trans hy'⟩)
  -- that is the entry, since nothing before the entry is on the cycle
  have hze : z = entry := by
    refine (List.mem_cons.mp (hcommon entry q hentry hentrypath)).resolve_right fun hzq => ?_
    exact hq z hzq hz
  exact hze ▸ hcommon x path hx hpath

/-- Two starts that enter a cycle at different blocks make a crossing. -/
theorem crossing_of_entersAt (hrange : graph.InRange) (hs : s ∈ graph.starts)
    (hs' : s' ∈ graph.starts) {b entry entry' : BlockId} (h : graph.EntersAt s b entry)
    (h' : graph.EntersAt s' b entry') (hne : entry ≠ entry') :
    graph.Crossing s' s entry' := by
  obtain ⟨p, path, q, hpath, hsplit, hentry, hq⟩ := id h
  obtain ⟨p', path', q', hpath', hsplit', hentry', hq'⟩ := id h'
  have hreach : ∀ {x}, graph.CommonCycle x b → graph.Reaches s x := fun hx => by
    have he := (hsplit ▸ hpath).suffix
    exact (he.reaches he.getLast_mem).trans (hentry.trans hx.symm).reaches
  have hreach' : ∀ {x}, graph.CommonCycle x b → graph.Reaches s' x := fun hx => by
    have he := (hsplit' ▸ hpath').suffix
    exact (he.reaches he.getLast_mem).trans (hentry'.trans hx.symm).reaches
  obtain ⟨r, hr⟩ := exists_treePath hrange (hrange.starts s hs) (hreach hentry')
  have hentryr : entry ∈ r :=
    (List.mem_cons.mp (h.mem_path hrange hs hentry' hr)).resolve_left hne
  obtain ⟨a, c, rfl⟩ := List.append_of_mem hentryr
  -- the block below the other entry is on the cycle
  obtain ⟨w, rest, hw⟩ : ∃ w rest, a ++ entry :: c = w :: rest := by
    cases a with
    | nil => exact ⟨entry, c, rfl⟩
    | cons w a => exact ⟨w, a ++ entry :: c, rfl⟩
  have hwcycle : graph.CommonCycle w b := by
    refine (hr.commonCycle_between (p := entry' :: a) rfl (hentry.trans hentry'.symm) ?_).trans
      hentry'
    exact List.mem_cons_of_mem entry' (List.mem_of_head? (head?_of_cons_eq_append hw.symm))
  rw [hw] at hr
  obtain ⟨r', hr'⟩ := exists_treePath hrange (hrange.starts s' hs') (hreach' hwcycle)
  have hentryr' : entry' ∈ r' := by
    refine (List.mem_cons.mp (h'.mem_path hrange hs' hwcycle hr')).resolve_left ?_
    rintro rfl
    exact (List.nodup_cons.mp hr.nodup).1 List.mem_cons_self
  exact ⟨w, r', rest, hr', hentryr', hr⟩

/-! ## The header chains -/

/-- The header chain of every block repeats none, does not come back to the block, and is on cycles
with it; and no chain is reported as endless or cyclic. -/
structure ChainsSound (graph : Graph) : Prop where
  nodup : ∀ b, (graph.analyzeLoops.value.headerChain b).value.Nodup
  not_mem : ∀ b, b ∉ (graph.analyzeLoops.value.headerChain b).value
  commonCycle : ∀ b, ∀ header ∈ (graph.analyzeLoops.value.headerChain b).value,
    graph.CommonCycle header b
  not_endless : ∀ unit line, Event.endlessHeaderMerge unit line ∉ graph.analyzeLoops.events
  not_cyclic : ∀ b unit line,
    Event.cyclicHeaderChain unit line ∉ (graph.analyzeLoops.value.headerChain b).events

/-- If all starts enter each cycle at the same block, the chains are right. -/
theorem SingleEntry.chainsSound (hrange : graph.InRange) (hentry : graph.SingleEntry) :
    graph.ChainsSound := by
  have hheader : ∀ {b header}, graph.analyzeLoops.value.Outer b header →
      graph.CycleHeader header b := cycleHeader_of_outer hrange hentry
  -- a header on a cycle is another block, so no chain comes back
  have hacyclic : ∀ b, ¬ graph.analyzeLoops.value.Outer b b := fun b h => (hheader h).ne rfl
  have hlt : ∀ b header, graph.analyzeLoops.value.outerHeader? b = some header →
      header < graph.analyzeLoops.value.size := by
    intro b header hb
    rw [outerHeader?_analyzeLoops hrange] at hb
    simpa [value_analyzeLoops] using ((linksInRange_found hrange).headers b header hb).1
  have hchain := fun b => headerChain_of_acyclic hlt hacyclic b
  exact {
    nodup := fun b => (hchain b).2.1
    not_mem := fun b hmem => hacyclic b (((hchain b).2.2.1 b).1 hmem)
    commonCycle := fun b header hmem => (hheader (((hchain b).2.2.1 header).1 hmem)).1
    not_endless := quiet_of_singleEntry hrange hentry
    not_cyclic := fun b unit line => by simp [(hchain b).1] }

/-- If the chains are right, all starts enter each cycle at the same block. -/
theorem ChainsSound.singleEntry (hrange : graph.InRange) (h : graph.ChainsSound) :
    graph.SingleEntry := by
  have hquiet : Quiet graph.found.events := graph.events_analyzeLoops ▸ h.not_endless
  -- a chain that comes back would hold its own block, or be cut off with a warning
  have hacyclic : ∀ b, ¬ (Search.fresh graph graph.found.value).Above b b := by
    intro b hcycle
    have hevents : (graph.analyzeLoops.value.headerChain b).events = [] := by
      have hcyclic := h.not_cyclic b
      unfold headerChain at hcyclic ⊢
      dsimp only at hcyclic ⊢
      split
      next => rfl
      next hend => simp [hend] at hcyclic
    exact not_outer_of_headerChain hevents (h.not_mem b) ((outer_analyzeLoops hrange b b).2 hcycle)
  intro s hs s' hs' b entry entry' henters henters'
  -- two entries would make a crossing, which needs a cycle among the headers
  by_contra hne
  exact not_crossing hrange hquiet hacyclic hs' hs entry'
    (crossing_of_entersAt hrange hs hs' henters henters' hne)

/-- The header chains of a graph are sound if and only if the searches of all its starts enter the
blocks of every cycle at one place. -/
theorem chainsSound_iff_singleEntry (graph : Graph) (hrange : graph.InRange) :
    graph.ChainsSound ↔ graph.SingleEntry :=
  ⟨fun h => h.singleEntry hrange, fun h => h.chainsSound hrange⟩

/-- With one start there is one entry, so that the chains of a loop of two blocks are sound. -/
theorem chainsSound_of_one_start :
    (ofEdges [[1], [0]] [0]).InRange ∧ (ofEdges [[1], [0]] [0]).ChainsSound := by
  have hrange : (ofEdges [[1], [0]] [0]).InRange := inRange_of_lt (by decide) (by decide)
  exact ⟨hrange, (chainsSound_iff_singleEntry _ hrange).2 (singleEntry_of_eq (by decide))⟩

/-- With a start at each of two blocks of a loop, each becomes a header of the other one. -/
theorem not_chainsSound_of_two_starts :
    (ofEdges [[1], [0]] [0, 1]).InRange ∧ ¬ (ofEdges [[1], [0]] [0, 1]).ChainsSound :=
  ⟨inRange_of_lt (by decide) (by decide), fun h => h.not_mem 0 (by decide)⟩

end RamOverlay.Graph
