import Mathlib.Data.Finset.Card
import Mathlib.Data.Finset.Range
import RamOverlay.Proofs.Loop.HeaderCycle

/-!
# The depth-first tree

A depth-first search without headers, told as a relation: it follows the edges of a block in order
and enters each block that it has not entered before. The edges by which it enters blocks make a
tree.

* **`Explores`, `DepthFirst`**: what such a search enters, and its tree.
* **`exists_depthFirst`**: there is such a tree. The induction is on the number of blocks that have
  not been entered, and inside it on the edges.
* **`DepthFirst.mem_iff`, `DepthFirst.ancestor_iff`**: its branches are the paths on which the
  search for headers can be (`TreePath`).
-/

namespace RamOverlay.Graph

variable {graph : Graph} {start id : BlockId} {seen seen' edges : List BlockId}
  {tree : List (BlockId × BlockId)}

/-- A search that has entered the blocks in `seen` follows the edges from `id` to `edges`, one after
the other. It enters the blocks of `tree` by the edges of `tree`, in this order, and has entered
`seen'` in the end. -/
inductive Explores (graph : Graph) : List BlockId → BlockId → List BlockId →
    List (BlockId × BlockId) → List BlockId → Prop where
  | done {seen : List BlockId} {id : BlockId} : Explores graph seen id [] [] seen
  | skip {seen rest seen' : List BlockId} {id next : BlockId} {tree : List (BlockId × BlockId)}
      (hold : next ∈ seen) (hrest : Explores graph seen id rest tree seen') :
      Explores graph seen id (next :: rest) tree seen'
  | enter {seen middle rest seen' : List BlockId} {id next : BlockId}
      {below tree : List (BlockId × BlockId)} (hnew : next ∉ seen)
      (hbelow : Explores graph (next :: seen) next (graph.successors next) below middle)
      (hrest : Explores graph middle id rest tree seen') :
      Explores graph seen id (next :: rest) ((id, next) :: (below ++ tree)) seen'

/-- The edges, each from a parent to its child, by which a depth-first search from `start` enters
blocks. -/
def DepthFirst (graph : Graph) (start : BlockId) (tree : List (BlockId × BlockId)) : Prop :=
  ∃ seen, graph.Explores [start] start (graph.successors start) tree seen

/-- `a` is a proper ancestor of `b` in the tree. -/
def Ancestor (tree : List (BlockId × BlockId)) (a b : BlockId) : Prop :=
  Relation.TransGen (fun parent child => (parent, child) ∈ tree) a b

/-! ## There is a tree -/

/-- The blocks of the graph that have not been entered. -/
def unseen (graph : Graph) (seen : List BlockId) : Finset BlockId :=
  (Finset.range graph.size).filter (· ∉ seen)

theorem card_unseen_le (h : seen ⊆ seen') : (graph.unseen seen').card ≤ (graph.unseen seen).card :=
  Finset.card_le_card fun _ hb => by
    simp only [unseen, Finset.mem_filter] at hb ⊢
    exact ⟨hb.1, fun hmem => hb.2 (h hmem)⟩

/-- Entering a new block leaves one less that is not entered. -/
theorem card_unseen_cons_lt (hid : id < graph.size) (hnew : id ∉ seen) :
    (graph.unseen (id :: seen)).card < (graph.unseen seen).card := by
  refine Finset.card_lt_card (Finset.ssubset_iff_subset_ne.2 ⟨fun b hb => ?_, fun heq => ?_⟩)
  · simp only [unseen, Finset.mem_filter, List.mem_cons, not_or] at hb ⊢
    exact ⟨hb.1, hb.2.2⟩
  · have hmem : id ∈ graph.unseen seen := by simp [unseen, hid, hnew]
    rw [← heq] at hmem
    simp [unseen] at hmem

/-- With a step for each block that is not entered yet, an exploration comes to its end. -/
theorem exists_explores (hrange : graph.InRange) {fuel : Nat}
    (hfuel : (graph.unseen seen).card < fuel) (hedges : ∀ next ∈ edges, next < graph.size) :
    ∃ tree seen', graph.Explores seen id edges tree seen' ∧ seen ⊆ seen' := by
  induction fuel generalizing seen id edges with
  | zero => exact absurd hfuel (Nat.not_lt_zero _)
  | succ fuel ihFuel =>
    induction edges generalizing seen with
    | nil => exact ⟨[], seen, .done, List.Subset.refl seen⟩
    | cons next rest ihRest =>
      obtain ⟨hnext, hrest⟩ := List.forall_mem_cons.1 hedges
      by_cases hold : next ∈ seen
      · obtain ⟨tree, seen', hexplores, hsub⟩ := ihRest hfuel hrest
        exact ⟨tree, seen', .skip hold hexplores, hsub⟩
      · -- below `next` fewer blocks are left, and behind it fewer edges
        have hfewer := card_unseen_cons_lt hnext hold
        obtain ⟨below, middle, hbelow, hmiddle⟩ : ∃ below middle,
            graph.Explores (next :: seen) next (graph.successors next) below middle ∧
              next :: seen ⊆ middle := ihFuel (by omega) (hrange.successors next)
        have hsub : seen ⊆ middle := List.Subset.trans (List.subset_cons_self next seen) hmiddle
        have hle : (graph.unseen middle).card ≤ (graph.unseen seen).card := card_unseen_le hsub
        obtain ⟨tree, seen', hexplores, hmore⟩ := ihRest (Nat.lt_of_le_of_lt hle hfuel) hrest
        exact ⟨_, seen', .enter hold hbelow hexplores, List.Subset.trans hsub hmore⟩

/-- Every graph has a depth-first tree from each start. -/
theorem exists_depthFirst (hrange : graph.InRange) (start : BlockId) :
    ∃ tree, graph.DepthFirst start tree := by
  obtain ⟨tree, seen, hexplores, -⟩ := exists_explores hrange (Nat.lt_succ_self _)
    (hrange.successors start)
  exact ⟨tree, seen, hexplores⟩

/-! ## The tree and the search for headers -/

/-- All that is entered is entered by an edge of the tree. -/
theorem Explores.exists_parent (h : graph.Explores seen id edges tree seen') {b : BlockId}
    (hb : b ∈ seen') : b ∈ seen ∨ ∃ parent, (parent, b) ∈ tree := by
  induction h with
  | done => exact .inl hb
  | skip _ _ ih => exact ih hb
  | @enter seen middle rest seen' id next below tree _ _ _ ihBelow ihRest =>
    rcases ihRest hb with hb | ⟨parent, hparent⟩
    · rcases ihBelow hb with hb | ⟨parent, hparent⟩
      · rcases List.mem_cons.1 hb with rfl | hb
        · exact .inr ⟨id, List.mem_cons_self⟩
        · exact .inl hb
      · exact .inr ⟨parent, List.mem_cons_of_mem _ (List.mem_append_left _ hparent)⟩
    · exact .inr ⟨parent, List.mem_cons_of_mem _ (List.mem_append_right _ hparent)⟩

/-- The search for headers enters the same blocks by the same edges: it is a run through states with
each edge of the tree on top of the path. -/
theorem Explores.run (hrange : graph.InRange) (h : graph.Explores seen id edges tree seen')
    {done : List BlockId} {stack : List (BlockId × List BlockId)} {search : Search}
    {events : List Event} (hedges : graph.successors id = done ++ edges)
    (hvalid : Stage.Valid graph ⟨(id, done) :: stack, search, events⟩)
    (hseen : ∀ b, search.visited.contains b = true ↔ b ∈ seen) :
    ∃ search' events', graph.Run ⟨(id, done) :: stack, search, events⟩
        ⟨(id, graph.successors id) :: stack, search', events'⟩ ∧
      (∀ b, search'.visited.contains b = true ↔ b ∈ seen') ∧
      ∀ parent child, (parent, child) ∈ tree → ∃ stage path,
        graph.Run ⟨(id, done) :: stack, search, events⟩ stage ∧
          stage.path = child :: parent :: path := by
  induction h generalizing done stack search events with
  | done =>
    rw [List.append_nil] at hedges
    exact ⟨search, events, hedges ▸ .refl, hseen, fun _ _ hmem => absurd hmem List.not_mem_nil⟩
  | @skip seen rest seen' id next tree hold _ ih =>
    have hmeet : graph.Step ⟨(id, done) :: stack, search, events⟩
        ⟨(id, done ++ [next]) :: stack, _, _⟩ :=
      .meet hedges ((hseen next).2 hold) (graph.outcome_meet _ _ _ _)
    have hsame := (graph.outcome_meet (id :: stack.map Prod.fst) id next search).visited_eq
    obtain ⟨search', events', hrun, hseen', htree⟩ := ih (by simpa using hedges)
      (hmeet.valid hrange hvalid) fun b => by rw [hsame]; exact hseen b
    refine ⟨search', events', .head hmeet hrun, hseen', fun parent child hmem => ?_⟩
    obtain ⟨stage, path, hstage, hpath⟩ := htree parent child hmem
    exact ⟨stage, path, .head hmeet hstage, hpath⟩
  | @enter seen middle rest seen' id next below tree hnew _ _ ihBelow ihRest =>
    have hnext : next < graph.size := hrange.successors id next (by simp [hedges])
    have henter : graph.Step ⟨(id, done) :: stack, search, events⟩
        ⟨(next, []) :: (id, done) :: stack,
          { search with visited := search.visited.insert next }, events⟩ :=
      .enter hedges (Bool.eq_false_iff.2 fun hold => hnew ((hseen next).1 hold))
    have hvalid' := henter.valid hrange hvalid
    have hbound : next < search.visited.bound := hvalid.bound ▸ hnext
    obtain ⟨search₁, events₁, hrun₁, hseen₁, htree₁⟩ :=
      ihBelow (graph.successors next).nil_append.symm hvalid' fun b => by simp [hbound, hseen b]
    -- the search is back at `next`, and leaves it
    have hvalid₁ := Run.valid hrange hrun₁ hvalid'
    have hoff : next ∉ id :: stack.map Prod.fst := (List.nodup_cons.1 hvalid₁.nodup).1
    have hleave : graph.Step
        ⟨(next, graph.successors next) :: (id, done) :: stack, search₁, events₁⟩
        ⟨(id, done ++ [next]) :: stack, _, _⟩ := .leave hedges (graph.outcome_leave id search₁ hoff)
    have hsame := (graph.outcome_leave id search₁ hoff).visited_eq
    obtain ⟨search', events', hrun, hseen', htree⟩ := ihRest (by simpa using hedges)
      (hleave.valid hrange hvalid₁) fun b => by rw [hsame]; exact hseen₁ b
    have hback := Relation.ReflTransGen.head henter (hrun₁.tail hleave)
    refine ⟨search', events', hback.trans hrun, hseen', fun parent child hmem => ?_⟩
    rcases List.mem_cons.1 hmem with heq | hmem
    · obtain ⟨rfl, rfl⟩ := Prod.mk.inj heq
      exact ⟨_, stack.map Prod.fst, .single henter, rfl⟩
    · rcases List.mem_append.1 hmem with hmem | hmem
      · obtain ⟨stage, path, hstage, hpath⟩ := htree₁ parent child hmem
        exact ⟨stage, path, .head henter hstage, hpath⟩
      · obtain ⟨stage, path, hstage, hpath⟩ := htree parent child hmem
        exact ⟨stage, path, hback.trans hstage, hpath⟩

namespace DepthFirst

variable (hrange : graph.InRange) (hstart : start < graph.size)
include hrange hstart

/-- The edges of the tree are the ends of the paths on which the search for headers can be. -/
theorem mem_iff (h : graph.DepthFirst start tree) {parent child : BlockId} :
    (parent, child) ∈ tree ↔ ∃ path, graph.TreePath start (child :: parent :: path) := by
  obtain ⟨seen, hexplores⟩ := h
  have hvalid := Stage.valid_first hstart graph.linksInRange_replicate
  have hexplored := Stage.explored_first hstart (Array.replicate graph.size {})
  obtain ⟨search, events, hrun, hseen, htree⟩ := hexplores.run hrange
    (graph.successors start).nil_append.symm hvalid fun b => by simp [hstart]
  have hpaths : ∀ {parent child}, (parent, child) ∈ tree →
      ∃ path, graph.TreePath start (child :: parent :: path) := fun hmem => by
    obtain ⟨stage, path, hstage, hpath⟩ := htree _ _ hmem
    exact ⟨path, hpath ▸ (Run.explored hrange hstage hvalid hexplored).tree⟩
  refine ⟨hpaths, fun ⟨path, hpath⟩ => ?_⟩
  have hentered := ((Run.explored hrange hrun hvalid hexplored).contains_iff rfl
    (Run.valid hrange hrun hvalid) child).2 (hpath.reaches hpath.getLast_mem)
  rcases hexplores.exists_parent ((hseen child).1 hentered) with hmem | ⟨other, hmem⟩
  · -- the start is entered by no edge
    obtain rfl := List.mem_singleton.1 hmem
    exact absurd (hpath.unique_path .start) (List.cons_ne_nil _ _)
  · obtain ⟨path', hpath'⟩ := hpaths hmem
    have hsame := hpath.unique_path hpath'
    exact (List.cons.inj hsame).1 ▸ hmem

/-- The ancestors of a block are the blocks below it on the path of the search. -/
theorem ancestor_iff (h : graph.DepthFirst start tree) {a b : BlockId} :
    Ancestor tree a b ↔ ∃ path, graph.TreePath start (b :: path) ∧ a ∈ path := by
  constructor
  · intro hancestor
    induction hancestor with
    | single hmem =>
      obtain ⟨path, hpath⟩ := (h.mem_iff hrange hstart).1 hmem
      exact ⟨_, hpath, List.mem_cons_self⟩
    | tail _ hmem ih =>
      obtain ⟨path, hpath, ha⟩ := ih
      obtain ⟨path', hpath'⟩ := (h.mem_iff hrange hstart).1 hmem
      -- a block has one path only, so the path of the parent is the rest of that of the child
      obtain rfl := hpath.unique_path (TreePath.suffix (p := [_]) hpath')
      exact ⟨_, hpath', List.mem_cons_of_mem _ ha⟩
  · rintro ⟨path, hpath, ha⟩
    induction path generalizing b with
    | nil => cases ha
    | cons parent path ih =>
      have hmem := (h.mem_iff hrange hstart).2 ⟨path, hpath⟩
      rcases List.mem_cons.1 ha with rfl | ha
      · exact .single hmem
      · exact .tail (ih (TreePath.suffix (p := [b]) hpath) ha) hmem

end DepthFirst

end RamOverlay.Graph
