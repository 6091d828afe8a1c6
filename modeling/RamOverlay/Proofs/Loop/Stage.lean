import Mathlib.Data.List.Perm.Subperm
import RamOverlay.Proofs.Loop.HeaderMerge
import RamOverlay.Proofs.Loop.SearchTree

/-!
# The search as a machine

A depth-first search taken apart into steps. The recursion of `searchFrom` keeps the blocks on its
path in its calls; here they stand on a stack, so that a fact about all of them can be carried from
step to step.

* **`Stage`, `Step`**: the states of the machine and its three moves.
* **`searchFrom_run`**: a call of `searchFrom` is a run of the machine.
* **`Stage.Valid`**: the path repeats nothing, and all numbers are places of blocks.
* **`Stage.Explored`**: the path is that of the search tree, and what has been left is closed under
  edges. So a search comes to all blocks that can be reached (`Stage.Explored.contains_iff`).
-/

namespace RamOverlay.Graph

variable {graph : Graph} {start : BlockId}

/-- A state of the search: the blocks on the path, each with the edges that have been followed, and
what has been found out and reported. -/
structure Stage where
  stack : List (BlockId × List BlockId)
  search : Search
  events : List Event

/-- The path from the current block back to the start. -/
def Stage.path (stage : Stage) : Path := stage.stack.map Prod.fst

/-- What comes of an edge from `id`, the head of the path, to a block that has been entered; `left`
tells whether it has been left just now. -/
inductive Outcome (graph : Graph) (left : Bool) (path : Path) (id next : BlockId)
    (search : Search) : Traced Search → Prop where
  | back (hnext : next ∈ path) : Outcome graph left path id next search
      (graph.tagHeader path id next search)
  | hand {header : BlockId} (hnext : next ∉ path) (hheader : search.header? next = some header)
      (hon : left = true ∨ header ∈ path) :
      Outcome graph left path id next search (graph.tagHeader path id header search)
  | plain (hnext : next ∉ path) (hheader : search.header? next = none) :
      Outcome graph left path id next search (pure search)
  | lost {header : BlockId} (hnext : next ∉ path) (hheader : search.header? next = some header)
      (hleft : left = false) (hoff : header ∉ path) : Outcome graph left path id next search
      ⟨search, [.irreducibleFlow graph.unit (graph.lineOf next)]⟩

/-- One move of the search: it enters a new block, looks at an edge to a block that it has entered
before, or leaves a block for the one before it on the path. -/
inductive Step (graph : Graph) : Stage → Stage → Prop where
  | enter {id next : BlockId} {done rest : List BlockId} {stack : List (BlockId × List BlockId)}
      {search : Search} {events : List Event}
      (hedges : graph.successors id = done ++ next :: rest)
      (hnew : search.visited.contains next = false) :
      Step graph ⟨(id, done) :: stack, search, events⟩
        ⟨(next, []) :: (id, done) :: stack,
          { search with visited := search.visited.insert next }, events⟩
  | meet {id next : BlockId} {done rest : List BlockId} {stack : List (BlockId × List BlockId)}
      {search : Search} {events : List Event} {effect : Traced Search}
      (hedges : graph.successors id = done ++ next :: rest)
      (hold : search.visited.contains next = true)
      (houtcome : graph.Outcome false (id :: stack.map Prod.fst) id next search effect) :
      Step graph ⟨(id, done) :: stack, search, events⟩
        ⟨(id, done ++ [next]) :: stack, effect.value, events ++ effect.events⟩
  | leave {id next : BlockId} {done rest : List BlockId} {stack : List (BlockId × List BlockId)}
      {search : Search} {events : List Event} {effect : Traced Search}
      (hedges : graph.successors id = done ++ next :: rest)
      (houtcome : graph.Outcome true (id :: stack.map Prod.fst) id next search effect) :
      Step graph ⟨(next, graph.successors next) :: (id, done) :: stack, search, events⟩
        ⟨(id, done ++ [next]) :: stack, effect.value, events ++ effect.events⟩

/-- The machine goes from one state to another in some number of moves. -/
abbrev Run (graph : Graph) : Stage → Stage → Prop := Relation.ReflTransGen graph.Step

/-- An edge to a block that was visited before is one of the cases. -/
theorem outcome_meet (graph : Graph) (path : Path) (id next : BlockId) (search : Search) :
    graph.Outcome false path id next search (graph.meet path id next search) := by
  unfold meet
  split
  next hnext => exact .back hnext
  next hnext =>
    cases hheader : search.header? next with
    | none => exact .plain hnext hheader
    | some header =>
      dsimp only
      split
      next hon => exact .hand hnext hheader (.inr hon)
      next hoff => exact .lost hnext hheader rfl hoff

/-- So is the way back from a block that was entered. -/
theorem outcome_leave (graph : Graph) {path : Path} {next : BlockId} (id : BlockId)
    (search : Search) (hnext : next ∉ path) :
    graph.Outcome true path id next search
      (match search.header? next with
      | some header => graph.tagHeader path id header search
      | none => pure search) := by
  cases hheader : search.header? next with
  | none => exact .plain hnext hheader
  | some header => exact .hand hnext hheader (.inl rfl)

section Outcome

variable {left : Bool} {path : Path} {id next : BlockId} {search : Search} {effect : Traced Search}

theorem Outcome.visited_eq (h : graph.Outcome left path id next search effect) :
    effect.value.visited = search.visited := by
  cases h <;> simp

theorem Outcome.secondary_eq (h : graph.Outcome left path id next search effect) :
    effect.value.links.map (·.secondary?) = search.links.map (·.secondary?) := by
  cases h <;> simp

theorem Outcome.size_eq (h : graph.Outcome left path id next search effect) :
    effect.value.links.size = search.links.size := by
  simpa using congrArg Array.size h.secondary_eq

/-- No case of an edge makes a block its own header. -/
theorem Outcome.sound {P : BlockId → Prop} (h : graph.Outcome left path id next search effect)
    (hsound : search.Sound fun g b => P g ∧ g ≠ b) (hnext : P next) :
    effect.value.Sound fun g b => P g ∧ g ≠ b := by
  cases h with
  | back _ => exact sound_tagHeader hsound hnext
  | hand _ hheader _ => exact sound_tagHeader hsound (hsound next _ hheader).1
  | plain _ _ => exact hsound
  | lost _ _ _ _ => exact hsound

end Outcome

/-! ## What every state is like -/

/-- The path repeats nothing and has been entered, all numbers are places of blocks, and no block is
its own header. -/
structure Stage.Valid (graph : Graph) (stage : Stage) : Prop where
  nodup : stage.path.Nodup
  entered : ∀ b ∈ stage.path, stage.search.visited.contains b = true
  bound : stage.search.visited.bound = graph.size
  size : stage.search.links.size = graph.size
  headers : stage.search.Sound fun header b => header < graph.size ∧ header ≠ b

theorem Stage.Valid.lt_size {stage : Stage} (h : stage.Valid graph) {b : BlockId}
    (hb : b ∈ stage.path) : b < graph.size :=
  h.bound ▸ AddressSet.lt_bound_of_contains (h.entered b hb)

/-- A path is no longer than there are blocks. -/
theorem Stage.Valid.length_le {stage : Stage} (h : stage.Valid graph) :
    stage.path.length ≤ graph.size := by
  have hsub : stage.path ⊆ List.range graph.size :=
    fun b hb => List.mem_range.mpr (h.lt_size hb)
  simpa using (List.subperm_of_subset h.nodup hsub).length_le

/-- A step keeps a stage valid. -/
theorem Step.valid (hrange : graph.InRange) {s t : Stage} (hstep : graph.Step s t)
    (h : s.Valid graph) : t.Valid graph := by
  obtain ⟨hnodup, hentered, hbound, hsize, hheaders⟩ := h
  cases hstep with
  | @enter id next done rest stack search events hedges hnew =>
    -- a block that is entered is new, so it is not on the path
    have hlt : next < graph.size := hrange.successors id next (by simp [hedges])
    refine ⟨List.nodup_cons.mpr ⟨fun hnext => ?_, hnodup⟩, fun b hb => ?_, ?_, hsize, hheaders⟩
    · simp [hentered next hnext] at hnew
    · rcases List.mem_cons.mp hb with rfl | hb
      · simp [hbound, hlt]
      · simp [hentered b hb]
    · simpa using hbound
  | @meet id next done rest stack search events effect hedges hold houtcome =>
    -- the edge changes links only
    have hlt : next < graph.size := hrange.successors id next (by simp [hedges])
    refine ⟨hnodup, fun b hb => ?_, ?_, ?_, houtcome.sound hheaders hlt⟩
    · exact (congrArg (·.contains b) houtcome.visited_eq).trans (hentered b hb)
    · exact (congrArg (·.bound) houtcome.visited_eq).trans hbound
    · exact houtcome.size_eq.trans hsize
  | @leave id next done rest stack search events effect hedges houtcome =>
    -- the path gets shorter by its last block
    have hlt : next < graph.size := hrange.successors id next (by simp [hedges])
    refine ⟨(List.nodup_cons.mp hnodup).2, fun b hb => ?_, ?_, ?_, houtcome.sound hheaders hlt⟩
    · exact (congrArg (·.contains b) houtcome.visited_eq).trans
        (hentered b (List.mem_cons_of_mem next hb))
    · exact (congrArg (·.bound) houtcome.visited_eq).trans hbound
    · exact houtcome.size_eq.trans hsize

theorem Run.valid (hrange : graph.InRange) {s t : Stage} (hrun : graph.Run s t)
    (h : s.Valid graph) : t.Valid graph := by
  induction hrun with
  | refl => exact h
  | tail _ hstep ih => exact hstep.valid hrange ih

/-- What has been entered stays entered, and what has been left stays left. -/
theorem Step.entered {s t : Stage} (hstep : graph.Step s t) {b : BlockId}
    (hb : s.search.visited.contains b = true) :
    t.search.visited.contains b = true ∧ (b ∉ s.path → b ∉ t.path) := by
  cases hstep with
  | @enter id next done rest stack search events hedges hnew =>
    refine ⟨by simp [hb], fun hoff hmem => ?_⟩
    rcases List.mem_cons.mp hmem with rfl | hmem
    · simp [hb] at hnew
    · exact hoff hmem
  | meet _ _ houtcome => exact ⟨houtcome.visited_eq ▸ hb, fun hoff => hoff⟩
  | leave _ houtcome =>
    exact ⟨houtcome.visited_eq ▸ hb, fun hoff hmem => hoff (List.mem_cons_of_mem _ hmem)⟩

/-! ## The recursion is a run -/

section Recursion

variable {path : Path} {id : BlockId} {visit : BlockId → Search → Traced Search}

/-- If the search from a new block is a run, so is the way along all the edges of `id`. -/
theorem followEdges_run (hrange : graph.InRange) {stack : List (BlockId × List BlockId)}
    (hvisit : ∀ next done search events,
      Stage.Valid graph ⟨(next, []) :: (id, done) :: stack,
        { search with visited := search.visited.insert next }, events⟩ →
      graph.Run ⟨(next, []) :: (id, done) :: stack,
          { search with visited := search.visited.insert next }, events⟩
        ⟨(next, graph.successors next) :: (id, done) :: stack, (visit next search).value,
          events ++ (visit next search).events⟩)
    {edges done : List BlockId} (hedges : graph.successors id = done ++ edges) {search : Search}
    {events : List Event} (hvalid : Stage.Valid graph ⟨(id, done) :: stack, search, events⟩) :
    graph.Run ⟨(id, done) :: stack, search, events⟩
      ⟨(id, graph.successors id) :: stack,
        (graph.followEdges visit (id :: stack.map Prod.fst) id edges search).value,
        events ++
          (graph.followEdges visit (id :: stack.map Prod.fst) id edges search).events⟩ := by
  induction edges generalizing done search events with
  | nil =>
    obtain rfl : graph.successors id = done := by simpa using hedges
    simpa [followEdges] using .refl
  | cons next rest ih =>
    -- first what comes of the edge to `next`, then the other edges
    obtain ⟨effect, heffect, hrun⟩ : ∃ effect : Traced Search,
        graph.followEdges visit (id :: stack.map Prod.fst) id (next :: rest) search =
          effect >>= graph.followEdges visit (id :: stack.map Prod.fst) id rest ∧
        graph.Run ⟨(id, done) :: stack, search, events⟩
          ⟨(id, done ++ [next]) :: stack, effect.value, events ++ effect.events⟩ := by
      rw [followEdges]
      cases hnew : search.visited.contains next with
      | true => exact ⟨_, rfl, .single (.meet hedges hnew (graph.outcome_meet _ _ _ _))⟩
      | false =>
        have henter : graph.Step ⟨(id, done) :: stack, search, events⟩
            ⟨(next, []) :: (id, done) :: stack,
              { search with visited := search.visited.insert next }, events⟩ :=
          .enter hedges hnew
        have hvalid' := henter.valid hrange hvalid
        have hnext : next ∉ id :: stack.map Prod.fst := (List.nodup_cons.mp hvalid'.nodup).1
        refine ⟨visit next search >>= fun search =>
          match search.header? next with
          | some header => graph.tagHeader (id :: stack.map Prod.fst) id header search
          | none => pure search, ?_, ?_⟩
        · rw [if_neg Bool.false_ne_true, bind_assoc]
          congr
          funext search
          cases search.header? next <;> rfl
        refine .head henter ((hvisit next done search events hvalid').trans (.single ?_))
        have hleave := @Step.leave graph id next done rest stack (visit next search).value
          (events ++ (visit next search).events) _ hedges (graph.outcome_leave id _ hnext)
        simpa using hleave
    have hedges' : graph.successors id = (done ++ [next]) ++ rest := by simpa using hedges
    have hrest := ih hedges' (hrun.valid hrange hvalid)
    rw [heffect]
    simpa using hrun.trans hrest

/-- A search with fuel for all blocks that are not on the path is a run of the machine. -/
theorem searchFrom_run (hrange : graph.InRange) {fuel : Nat}
    {stack : List (BlockId × List BlockId)} {search : Search} {events : List Event}
    (hfuel : graph.size ≤ stack.length + fuel)
    (hvalid : Stage.Valid graph
      ⟨(id, []) :: stack, { search with visited := search.visited.insert id }, events⟩) :
    graph.Run ⟨(id, []) :: stack, { search with visited := search.visited.insert id }, events⟩
      ⟨(id, graph.successors id) :: stack,
        (graph.searchFrom fuel (stack.map Prod.fst) id search).value,
        events ++ (graph.searchFrom fuel (stack.map Prod.fst) id search).events⟩ := by
  induction fuel generalizing id stack search events with
  | zero =>
    -- the path would be longer than there are blocks
    have hlength := hvalid.length_le
    simp only [Stage.path, List.map_cons, List.length_cons, List.length_map] at hlength
    omega
  | succ fuel ih =>
    refine followEdges_run hrange (fun next done search' events' hvalid' => ?_) rfl hvalid
    exact ih (by simp only [List.length_cons]; omega) hvalid'

end Recursion

/-! ## The search from a start -/

/-- What is known before a search: the headers that earlier searches have found. -/
def Search.fresh (graph : Graph) (links : Array LoopLinks) : Search :=
  { visited := .empty graph.size, links }

/-- The search from `start`, as `searchAll` makes it. -/
def searchOf (graph : Graph) (start : BlockId) (links : Array LoopLinks) : Traced Search :=
  graph.searchFrom graph.size [] start (.fresh graph links)

/-- The state in which the search from `start` begins. -/
def Stage.first (graph : Graph) (start : BlockId) (links : Array LoopLinks) : Stage :=
  ⟨[(start, [])], { visited := (AddressSet.empty graph.size).insert start, links }, []⟩

/-- The state in which the search from `start` ends. -/
def Stage.last (graph : Graph) (start : BlockId) (links : Array LoopLinks) : Stage :=
  ⟨[(start, graph.successors start)], (graph.searchOf start links).value,
    (graph.searchOf start links).events⟩

/-- The links have room for every block, hold blocks only, and make none its own header. -/
structure LinksInRange (graph : Graph) (links : Array LoopLinks) : Prop where
  size : links.size = graph.size
  headers : (Search.fresh graph links).Sound fun header b => header < graph.size ∧ header ≠ b

theorem Stage.valid_first (hstart : start < graph.size) {links : Array LoopLinks}
    (hlinks : graph.LinksInRange links) : (Stage.first graph start links).Valid graph where
  nodup := by simp [Stage.first, Stage.path]
  entered b hb := by
    obtain rfl : b = start := by simpa [Stage.first, Stage.path] using hb
    simp [Stage.first, hstart]
  bound := by simp [Stage.first]
  size := hlinks.size
  headers := hlinks.headers

/-- The search from a start is a run from its first state to its last one. -/
theorem searchOf_run (hrange : graph.InRange) (hstart : start < graph.size)
    {links : Array LoopLinks} (hlinks : graph.LinksInRange links) :
    graph.Run (.first graph start links) (.last graph start links) := by
  have hfuel : graph.size ≤ ([] : List (BlockId × List BlockId)).length + graph.size := by simp
  have hvalid : Stage.Valid graph ⟨[(start, [])], { Search.fresh graph links with
      visited := (Search.fresh graph links).visited.insert start }, []⟩ :=
    Stage.valid_first hstart hlinks
  exact searchFrom_run hrange hfuel hvalid

/-! ## What a search comes to -/

/-- The path is the one of the search tree, all that has been entered lies on such a path, and
nothing that a followed edge leads to is missing. -/
structure Stage.Explored (graph : Graph) (start : BlockId) (stage : Stage) : Prop where
  tree : graph.TreePath start stage.path
  entered : ∀ b, stage.search.visited.contains b = true → ∃ p, graph.TreePath start (b :: p)
  closed : ∀ b, stage.search.visited.contains b = true → b ∉ stage.path →
    ∀ next ∈ graph.successors b, stage.search.visited.contains next = true
  followed : ∀ frame ∈ stage.stack, ∀ next ∈ frame.2,
    stage.search.visited.contains next = true
  earlier : ∀ b, graph.Earlier stage.path b →
    stage.search.visited.contains b = true ∧ b ∉ stage.path

/-- What has been entered and left is closed under routes that keep off the path. -/
theorem Stage.Explored.contains_of_route {stage : Stage} (h : stage.Explored graph start)
    {u v : BlockId} {p : List BlockId} (hp : graph.Route u p v) (hoff : ∀ b ∈ p, b ∉ stage.path)
    (hu : stage.search.visited.contains u = true) : stage.search.visited.contains v = true := by
  induction hp with
  | refl u => exact hu
  | step hedge _ ih =>
    exact ih (fun b hb => hoff b (List.mem_cons_of_mem _ hb))
      (h.closed _ hu (hoff _ List.mem_cons_self) _ hedge)

/-- The edges before the first one to `next` are among those that have been followed when the edge
to `next` is taken. -/
theorem mem_of_mem_takeWhile_ne {done rest : List BlockId} {next other : BlockId}
    (h : other ∈ (done ++ next :: rest).takeWhile (· ≠ next)) : other ∈ done := by
  induction done with
  | nil => simp at h
  | cons b done ih =>
    by_cases hb : b = next
    · simp [hb] at h
    · simp only [List.cons_append, ne_eq, hb, not_false_eq_true, decide_true,
        List.takeWhile_cons_of_pos, List.mem_cons] at h
      exact List.mem_cons.mpr (h.imp_right ih)

/-- Entering a new block keeps to the search tree. -/
theorem Stage.Explored.enter {id next : BlockId} {done rest : List BlockId}
    {stack : List (BlockId × List BlockId)} {search : Search} {events : List Event}
    (h : Stage.Explored graph start ⟨(id, done) :: stack, search, events⟩)
    (hvalid : Stage.Valid graph ⟨(id, done) :: stack, search, events⟩)
    (hrange : graph.InRange) (hedges : graph.successors id = done ++ next :: rest)
    (hnew : search.visited.contains next = false) :
    Stage.Explored graph start ⟨(next, []) :: (id, done) :: stack,
      { search with visited := search.visited.insert next }, events⟩ := by
  have hlt : next < graph.size := hrange.successors id next (by simp [hedges])
  have hcontains : ∀ b, (search.visited.insert next).contains b = true ↔
      b = next ∨ search.visited.contains b = true := by
    intro b
    have hbound : next < search.visited.bound := hvalid.bound ▸ hlt
    simp [hbound]
  have hoff : next ∉ id :: stack.map Prod.fst := fun hnext => by
    simp [hvalid.entered next hnext] at hnew
  -- what is earlier on the new path has been entered before
  have hearlier : ∀ b, graph.Earlier (next :: id :: stack.map Prod.fst) b →
      search.visited.contains b = true ∧ b ∉ id :: stack.map Prod.fst := by
    rintro b (⟨other, hother, r, hr, hroff⟩ | hb)
    · rw [hedges] at hother
      have hfollowed := h.followed _ List.mem_cons_self other (mem_of_mem_takeWhile_ne hother)
      exact ⟨h.contains_of_route hr hroff hfollowed, hroff b hr.last_mem⟩
    · exact h.earlier b hb
  have hpath : graph.TreePath start (next :: id :: stack.map Prod.fst) := by
    refine .step h.tree (by simp [hedges]) hoff fun hnext => ?_
    simp [(hearlier next hnext).1] at hnew
  refine ⟨hpath, fun b hb => ?_, fun b hb hboff y hy => ?_, ?_, fun b hb => ?_⟩
  · rcases (hcontains b).1 hb with rfl | hb
    · exact ⟨_, hpath⟩
    · exact h.entered b hb
  · have hbnext : b ≠ next := fun hbnext => hboff (hbnext ▸ List.mem_cons_self)
    have hb := ((hcontains b).1 hb).resolve_left hbnext
    exact (hcontains y).2 (.inr (h.closed b hb (fun hm => hboff (List.mem_cons_of_mem _ hm)) y hy))
  · intro frame hframe y hy
    rcases List.mem_cons.mp hframe with rfl | hframe
    · cases hy
    · exact (hcontains y).2 (.inr (h.followed frame hframe y hy))
  · obtain ⟨hentered, hboff⟩ := hearlier b hb
    refine ⟨(hcontains b).2 (.inr hentered), fun hm => ?_⟩
    rcases List.mem_cons.mp hm with rfl | hm
    · simp [hentered] at hnew
    · exact hboff hm

/-- A step goes along the search tree and leaves out no edge. -/
theorem Step.explored (hrange : graph.InRange) {s t : Stage} (hstep : graph.Step s t)
    (hvalid : s.Valid graph) (h : s.Explored graph start) : t.Explored graph start := by
  cases hstep with
  | enter hedges hnew => exact h.enter hvalid hrange hedges hnew
  | @meet id next done rest stack search events effect hedges hold houtcome =>
    have hvisited := houtcome.visited_eq
    refine ⟨h.tree, ?_, ?_, fun frame hframe y hy => ?_, ?_⟩
    · exact hvisited ▸ h.entered
    · exact hvisited ▸ h.closed
    · show effect.value.visited.contains y = true
      rw [hvisited]
      rcases List.mem_cons.mp hframe with rfl | hframe
      · rcases List.mem_append.mp hy with hy | hy
        · exact h.followed _ List.mem_cons_self y hy
        · rw [List.mem_singleton.mp hy]
          exact hold
      · exact h.followed frame (List.mem_cons_of_mem _ hframe) y hy
    · exact hvisited ▸ h.earlier
  | @leave id next done rest stack search events effect hedges houtcome =>
    have hvisited := houtcome.visited_eq
    refine ⟨h.tree.suffix (p := [next]), ?_, fun b hb hboff y hy => ?_,
      fun frame hframe y hy => ?_, fun b hb => ?_⟩
    · exact hvisited ▸ h.entered
    · show effect.value.visited.contains y = true
      have hb : search.visited.contains b = true := hvisited ▸ hb
      rw [hvisited]
      by_cases hbnext : b = next
      · -- all edges of the block that is left have been followed
        subst hbnext
        exact h.followed _ List.mem_cons_self y hy
      · refine h.closed b hb (fun hm => ?_) y hy
        exact hboff ((List.mem_cons.mp hm).resolve_left hbnext)
    · show effect.value.visited.contains y = true
      rw [hvisited]
      rcases List.mem_cons.mp hframe with rfl | hframe
      · rcases List.mem_append.mp hy with hy | hy
        · exact h.followed _ (List.mem_cons_of_mem _ List.mem_cons_self) y hy
        · rw [List.mem_singleton.mp hy]
          exact hvalid.entered next List.mem_cons_self
      · exact h.followed frame (List.mem_cons_of_mem _ (List.mem_cons_of_mem _ hframe)) y hy
    · obtain ⟨hentered, hboff⟩ := h.earlier b (Or.inr hb)
      exact ⟨hvisited ▸ hentered, fun hm => hboff (List.mem_cons_of_mem next hm)⟩

theorem Run.explored (hrange : graph.InRange) {s t : Stage} (hrun : graph.Run s t)
    (hvalid : s.Valid graph) (h : s.Explored graph start) : t.Explored graph start := by
  induction hrun with
  | refl => exact h
  | tail hrun hstep ih => exact hstep.explored hrange (Run.valid hrange hrun hvalid) ih

theorem Stage.explored_first (hstart : start < graph.size) (links : Array LoopLinks) :
    (Stage.first graph start links).Explored graph start := by
  have hcontains : ∀ b, (Stage.first graph start links).search.visited.contains b = true ↔
      b = start := by
    simp [Stage.first, hstart]
  refine ⟨.start, fun b hb => ?_, fun b hb hoff => ?_, ?_, fun b hb => hb.elim⟩
  · exact (hcontains b).1 hb ▸ ⟨[], .start⟩
  · exact absurd ((hcontains b).1 hb ▸ List.mem_singleton_self start) hoff
  · intro frame hframe y hy
    rw [List.mem_singleton.mp hframe] at hy
    cases hy

/-- A search that has come back to its start has come to all blocks that the start reaches, and to
no others. -/
theorem Stage.Explored.contains_iff {stage : Stage} (h : stage.Explored graph start)
    (hstack : stage.stack = [(start, graph.successors start)]) (hvalid : stage.Valid graph)
    (b : BlockId) : stage.search.visited.contains b = true ↔ graph.Reaches start b := by
  have hpath : stage.path = [start] := by rw [Stage.path, hstack]; rfl
  constructor
  · intro hb
    obtain ⟨p, hp⟩ := h.entered b hb
    exact hp.reaches hp.getLast_mem
  · rintro ⟨p, hp⟩
    have hstart : stage.search.visited.contains start = true :=
      hvalid.entered start (hpath ▸ List.mem_cons_self)
    -- what has been entered is closed under the edges, the start as the block on the stack
    have hclosed : ∀ x, stage.search.visited.contains x = true →
        ∀ y ∈ graph.successors x, stage.search.visited.contains y = true := by
      intro x hx y hy
      by_cases hxs : x = start
      · exact h.followed (start, graph.successors start) (hstack ▸ List.mem_cons_self) y (hxs ▸ hy)
      · exact h.closed x hx (fun hm => hxs (List.mem_singleton.mp (hpath ▸ hm))) y hy
    generalize stage.search.visited = visited at hclosed hstart ⊢
    clear h hvalid hstack hpath
    induction hp with
    | refl u => exact hstart
    | step hedge _ ih => exact ih (hclosed _ hstart _ hedge)

end RamOverlay.Graph
