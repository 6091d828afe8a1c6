import RamOverlay.Proofs.Loop.DepthFirst

/-!
# Headers in the depth-first tree

With one start, the headers that the analysis finds can be told from the depth-first tree, whether
cycles have one entry or several.

* **`headerOrder_treeHeader`**: the blocks below a block on its path to which an edge leads back are
  ordered along the path, so no search makes a header of any other block.
* **`loopHeaders_iff_backEdge`**: the headers are the targets of the edges that lead to a block from
  its descendants; the header chain of a block goes up the tree, and no merge is endless.
-/

namespace RamOverlay.Graph

variable {graph : Graph} {start b header : BlockId}

/-- `header` is below `b` on the path of the search, and an edge leads back to it from a block above
it. -/
def TreeHeader (graph : Graph) (start header b : BlockId) : Prop :=
  (∃ path, graph.TreePath start (b :: path) ∧ header ∈ path) ∧
    ∃ u path, graph.TreePath start (u :: path) ∧ header ∈ path ∧ header ∈ graph.successors u

/-- The headers of the tree are in the order that a search relies on. -/
theorem headerOrder_treeHeader (graph : Graph) (start : BlockId) :
    graph.HeaderOrder start (graph.TreeHeader start) where
  back id path next hpath hedge hmem := by
    rcases List.mem_cons.1 hmem with rfl | hnext
    · exact .inl rfl
    · exact .inr ⟨⟨path, hpath, hnext⟩, id, path, hpath, hnext, hedge⟩
  hand id path next header hpath _ hheader hmem := by
    rcases List.mem_cons.1 hmem with rfl | hin
    · exact .inl rfl
    · exact .inr ⟨⟨path, hpath, hin⟩, hheader.2⟩
  below b path header hpath hheader := by
    -- a block has one path in the tree
    obtain ⟨⟨path', hpath', hmem⟩, -⟩ := hheader
    exact hpath.unique_path hpath' ▸ hmem
  nested b p inner q outer hpath houter _ hheader :=
    ⟨⟨q, TreePath.suffix (p := b :: p) hpath, houter⟩, hheader.2⟩

section OneStart

variable (hrange : graph.InRange) (hstart : graph.starts = [start])
include hrange hstart

/-- A graph with one start is searched without a warning, and all links are headers of its tree. -/
theorem found_of_one_start :
    (Search.fresh graph graph.found.value).Sound (graph.TreeHeader start) ∧
      Quiet graph.found.events :=
  searchAll_sound hrange hrange.starts
    (fun s hs => by
      obtain rfl : s = start := List.mem_singleton.1 (hstart ▸ hs)
      exact graph.headerOrder_treeHeader s)
    graph.linksInRange_replicate (graph.sound_replicate _)

/-- The headers above a block are below it on its path. -/
theorem treePath_of_outer (h : graph.analyzeLoops.value.Outer b header) :
    ∃ path, graph.TreePath start (b :: path) ∧ header ∈ path := by
  have hsound := (found_of_one_start hrange hstart).1
  rw [outer_analyzeLoops hrange] at h
  induction h with
  | single hheader => exact (hsound _ _ hheader).1
  | @tail inner outer _ hheader ih =>
    obtain ⟨path, hpath, hinner⟩ := ih
    obtain ⟨⟨path', hpath', houter⟩, -⟩ := hsound _ _ hheader
    obtain ⟨p, q, rfl⟩ := List.append_of_mem hinner
    obtain rfl := hpath'.unique_path (TreePath.suffix (p := b :: p) hpath)
    exact ⟨_, hpath, List.mem_append_right p (List.mem_cons_of_mem inner houter)⟩

/-- A block is found to be a header if and only if an edge leads back to it from a block above. -/
theorem exists_foundHeader?_iff : (∃ b, graph.foundHeader? b = some header) ↔
    ∃ u path, graph.TreePath start (u :: path) ∧ header ∈ path ∧ header ∈ graph.successors u := by
  obtain ⟨hsound, hquiet⟩ := found_of_one_start hrange hstart
  constructor
  · rintro ⟨b, hb⟩
    exact (hsound b header hb).2
  · rintro ⟨u, path, hpath, hmem, hedge⟩
    -- the edge makes `header` a header of `u`, so that it is the last one of a chain from `u`
    have habove := above_of_back hrange hquiet (hstart ▸ List.mem_cons_self) hpath hedge
      (p := []) rfl hmem
    obtain ⟨b, -, hb⟩ := Relation.TransGen.tail'_iff.1 habove
    exact ⟨b, hb⟩

end OneStart

/-- With one start, a block heads a loop if and only if it is its own successor or an edge leads to
it from one of its descendants in the depth-first tree. The header chain of a block holds ancestors
of the block, each an ancestor of those before it, and no merge of header chains is endless. -/
theorem loopHeaders_iff_backEdge (graph : Graph) (hrange : graph.InRange) {start : BlockId}
    (hstart : graph.starts = [start]) :
    (∃ tree, graph.DepthFirst start tree) ∧ ∀ tree, graph.DepthFirst start tree →
      (∀ header, header ∈ graph.analyzeLoops.value.loopHeaders ↔
        header ∈ graph.successors header ∨
          ∃ u, header ∈ graph.successors u ∧ Ancestor tree header u) ∧
      (∀ b, (∀ header ∈ (graph.analyzeLoops.value.headerChain b).value, Ancestor tree header b) ∧
        (graph.analyzeLoops.value.headerChain b).value.Pairwise fun inner outer =>
          Ancestor tree outer inner) ∧
      ∀ unit line, Event.endlessHeaderMerge unit line ∉ graph.analyzeLoops.events := by
  have hlt : start < graph.size := hrange.starts start (hstart ▸ List.mem_cons_self)
  refine ⟨exists_depthFirst hrange start, fun tree htree => ⟨fun header => ?_, fun b => ?_, ?_⟩⟩
  · have hsize : graph.analyzeLoops.value.size = graph.size := size_withNesting graph _
    rw [loopHeaders, List.mem_filter, isLoopHeader_analyzeLoops hrange,
      exists_foundHeader?_iff hrange hstart, ids, List.mem_range, hsize]
    constructor
    · rintro ⟨-, -, hself | ⟨u, path, hpath, hmem, hedge⟩⟩
      · exact .inl hself
      · exact .inr ⟨u, hedge, (htree.ancestor_iff hrange hlt).2 ⟨path, hpath, hmem⟩⟩
    · rintro (hself | ⟨u, hedge, hancestor⟩)
      · have hheader := hrange.successors _ _ hself
        exact ⟨hheader, hheader, .inl hself⟩
      · have hheader := hrange.successors _ _ hedge
        obtain ⟨path, hpath, hmem⟩ := (htree.ancestor_iff hrange hlt).1 hancestor
        exact ⟨hheader, hheader, .inr ⟨u, path, hpath, hmem, hedge⟩⟩
  · have hancestor : ∀ {b header}, graph.analyzeLoops.value.Outer b header →
        Ancestor tree header b := fun houter =>
      (htree.ancestor_iff hrange hlt).2 (treePath_of_outer hrange hstart houter)
    rw [value_headerChain]
    exact ⟨fun header hmem => hancestor (outer_of_mem_chainFrom hmem),
      (pairwise_chainFrom _ _ b).imp hancestor⟩
  · rw [events_analyzeLoops]
    exact (found_of_one_start hrange hstart).2

/-- The loop of two blocks that is entered at both: the one that the search enters first is its
header. -/
theorem loopHeaders_iff_backEdge_twoEntries :
    let graph := ofEdges [[1, 2], [2], [1]] [0]
    let tree := [(0, 1), (1, 2)]
    graph.InRange ∧ graph.starts = [0] ∧ graph.DepthFirst 0 tree ∧
      1 ∈ graph.analyzeLoops.value.loopHeaders ∧
      1 ∈ (graph.analyzeLoops.value.headerChain 2).value ∧ Ancestor tree 1 2 ∧
      ∀ unit line, Event.endlessHeaderMerge unit line ∉ graph.analyzeLoops.events := by
  intro graph tree
  have hrange : graph.InRange := inRange_of_lt (by decide) (by decide)
  have hlast : graph.Explores [2, 1, 0] 2 [1] [] [2, 1, 0] := .skip (by decide) .done
  have hinner : graph.Explores [1, 0] 1 [2] [(1, 2)] [2, 1, 0] := .enter (by decide) hlast .done
  have hrest : graph.Explores [2, 1, 0] 0 [2] [] [2, 1, 0] := .skip (by decide) .done
  have htree : graph.DepthFirst 0 tree := ⟨[2, 1, 0], .enter (by decide) hinner hrest⟩
  obtain ⟨hheaders, hchain, hquiet⟩ := (loopHeaders_iff_backEdge graph hrange rfl).2 tree htree
  have hmem : 1 ∈ (graph.analyzeLoops.value.headerChain 2).value := by decide
  have hancestor : Ancestor tree 1 2 := (hchain 2).1 1 hmem
  exact ⟨hrange, rfl, htree, (hheaders 1).2 (.inr ⟨2, by decide, hancestor⟩), hmem, hancestor,
    hquiet⟩

end RamOverlay.Graph
