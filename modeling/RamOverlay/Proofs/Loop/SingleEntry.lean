import RamOverlay.Proofs.Loop.HeaderChain

/-!
# Cycles with a single entry

The searches of different starts keep each other's headers. That is sound as long as they come into
every cycle through the same block: then they go on along the same paths inside it.

* **`EntersAt`, `SingleEntry`**: where a search comes to the blocks that are on a cycle with another
  one, and that all searches do so at one place.
* **`CycleHeader`**: a block on the path of a search to another block that is on a cycle with it.
* **`headerOrder_cycleHeader`**: where cycles have single entries, these blocks are ordered along
  the paths of all searches, so that no other headers are made.
-/

namespace RamOverlay.Graph

variable {graph : Graph} {start s s' : BlockId}

/-- The search from `start` comes to the blocks on a cycle with `b` by way of `entry`. -/
def EntersAt (graph : Graph) (start b entry : BlockId) : Prop :=
  ∃ p path q, graph.TreePath start (b :: path) ∧ b :: path = p ++ entry :: q ∧
    graph.CommonCycle entry b ∧ ∀ x ∈ q, ¬ graph.CommonCycle x b

/-- All searches come to the blocks of a cycle at one place. -/
def SingleEntry (graph : Graph) : Prop :=
  ∀ s ∈ graph.starts, ∀ s' ∈ graph.starts, ∀ b entry entry',
    graph.EntersAt s b entry → graph.EntersAt s' b entry' → entry = entry'

/-- `header` is on a cycle with `b`, and on the path of a search to it. -/
def CycleHeader (graph : Graph) (header b : BlockId) : Prop :=
  graph.CommonCycle header b ∧
    ∃ start ∈ graph.starts, ∃ path, graph.TreePath start (b :: path) ∧ header ∈ path

/-- The last member of a list with a property. -/
theorem exists_last {P : BlockId → Prop} {l : List BlockId} {b : BlockId} (hb : b ∈ l) (hP : P b) :
    ∃ p e q, l = p ++ e :: q ∧ P e ∧ ∀ x ∈ q, ¬ P x := by
  induction l generalizing b with
  | nil => cases hb
  | cons y l ih =>
    by_cases hl : ∃ x ∈ l, P x
    · obtain ⟨x, hx, hPx⟩ := hl
      obtain ⟨p, e, q, rfl, he, hq⟩ := ih hx hPx
      exact ⟨y :: p, e, q, rfl, he, hq⟩
    · -- with none in the rest it has to be the first
      have hyP : P y := by
        rcases List.mem_cons.mp hb with rfl | hbl
        · exact hP
        · exact absurd ⟨b, hbl, hP⟩ hl
      exact ⟨[], y, l, rfl, hyP, fun x hx hPx => hl ⟨x, hx, hPx⟩⟩

/-- Between two blocks of a cycle the path of a search is on the cycle, too. -/
theorem TreePath.commonCycle_between {b e x : BlockId} {path p q : Path}
    (h : graph.TreePath start (b :: path)) (hsplit : b :: path = p ++ e :: q)
    (hcycle : graph.CommonCycle e b) (hx : x ∈ p ++ [e]) : graph.CommonCycle x b := by
  have hroute := (hsplit ▸ h).route (head?_of_cons_eq_append hsplit)
  exact hcycle.of_route hroute (by simpa [or_comm] using hx)

/-- A search enters the blocks on a cycle with `b` at some block, and stays among them then. -/
theorem TreePath.exists_entry {b : BlockId} {path : Path} (h : graph.TreePath start (b :: path))
    (hcycle : graph.CommonCycle b b) :
    ∃ p e q, b :: path = p ++ e :: q ∧ graph.EntersAt start b e ∧ graph.CommonCycle e b ∧
      (∀ x ∈ p ++ [e], graph.CommonCycle x b) ∧ ∀ x ∈ q, ¬ graph.CommonCycle x b := by
  obtain ⟨p, e, q, hsplit, he, hq⟩ :=
    exists_last (P := fun x => graph.CommonCycle x b) List.mem_cons_self hcycle
  exact ⟨p, e, q, hsplit, ⟨p, path, q, h, hsplit, he, hq⟩, he,
    fun x hx => h.commonCycle_between hsplit he hx, hq⟩

/-! ## One entry makes the searches agree -/

/-- One search enters a cycle at one place. -/
theorem EntersAt.unique {b entry entry' : BlockId} (h : graph.EntersAt start b entry)
    (h' : graph.EntersAt start b entry') : entry = entry' := by
  obtain ⟨p, path, q, hpath, hsplit, hentry, hq⟩ := h
  obtain ⟨p', path', q', hpath', hsplit', hentry', hq'⟩ := h'
  obtain rfl := hpath.unique_path hpath'
  by_contra hne
  have hin : entry' ∈ p ++ entry :: q := hsplit ▸ hsplit' ▸ by simp
  have hp : entry' ∈ p := by
    refine (List.mem_append.mp hin).resolve_right fun hin => ?_
    exact (List.mem_cons.mp hin).elim (Ne.symm hne) fun hin => hq entry' hin hentry'
  obtain ⟨p₁, p₂, rfl⟩ := List.append_of_mem hp
  -- below `entry'` comes `entry`, but nothing of the cycle does
  have hbelow : graph.TreePath start (entry' :: (p₂ ++ entry :: q)) := by
    refine TreePath.suffix (p := p₁) ?_
    rw [hsplit] at hpath
    simpa using hpath
  obtain rfl := hbelow.unique_path (hsplit' ▸ hpath).suffix
  exact hq' entry (by simp) hentry

/-- With a single start there are no two entries. -/
theorem singleEntry_of_eq (h : ∀ s ∈ graph.starts, ∀ s' ∈ graph.starts, s = s') :
    graph.SingleEntry := by
  intro s hs s' hs' b entry entry' henters henters'
  obtain rfl := h s hs s' hs'
  exact henters.unique henters'

/-- What one search passes on a cycle with `b`, the others do, too. -/
theorem SingleEntry.mem_path (hentry : graph.SingleEntry) (hs : s ∈ graph.starts)
    (hs' : s' ∈ graph.starts) {b header : BlockId} {path path' : Path}
    (h : graph.TreePath s (b :: path)) (h' : graph.TreePath s' (b :: path'))
    (hmem : header ∈ path) (hcycle : graph.CommonCycle header b) : header ∈ path' := by
  have hbb := hcycle.symm.trans hcycle
  obtain ⟨p, e, q, hsplit, henters, _, hp, hq⟩ := h.exists_entry hbb
  obtain ⟨p', e', q', hsplit', henters', _, hp', hq'⟩ := h'.exists_entry hbb
  obtain rfl := hentry s hs s' hs' b e e' henters henters'
  -- the parts of the two paths inside the cycle are the same
  have heq : p = p' := by
    have hhead : (p ++ [e]).head? = (p' ++ [e]).head? := by
      rw [head?_of_cons_eq_append hsplit, head?_of_cons_eq_append hsplit']
    refine (hsplit ▸ h).unique (hsplit' ▸ h') hhead (fun x hx hxq => ?_) (fun x hx hxq => ?_)
    · exact hq' x hxq (hp x (List.mem_append_left _ hx))
    · exact hq x hxq (hp' x (List.mem_append_left _ hx))
  subst heq
  have hmem' : header ∈ p ++ [e] := by
    have hin : header ∈ p ++ e :: q := hsplit ▸ List.mem_cons_of_mem b hmem
    rw [List.append_cons] at hin
    exact (List.mem_append.mp hin).resolve_right fun hxq => hq header hxq hcycle
  have hne : header ≠ b := by
    rintro rfl
    exact (List.nodup_cons.mp h.nodup).1 hmem
  have hin : header ∈ b :: path' := by
    rw [hsplit', List.append_cons]
    exact List.mem_append_left _ hmem'
  exact (List.mem_cons.mp hin).resolve_left hne

theorem CycleHeader.ne {header b : BlockId} (h : graph.CycleHeader header b) : header ≠ b := by
  obtain ⟨_, _, _, path, hpath, hmem⟩ := h
  rintro rfl
  exact (List.nodup_cons.mp hpath.nodup).1 hmem

/-- The header of a cycle is on each path into it, from whichever start. -/
theorem CycleHeader.mem_path (hentry : graph.SingleEntry) {header b : BlockId}
    (h : graph.CycleHeader header b) (hs : s ∈ graph.starts) {path : Path}
    (hpath : graph.TreePath s (b :: path)) : header ∈ path := by
  obtain ⟨hcycle, s', hs', path', hpath', hmem⟩ := h
  exact hentry.mem_path hs' hs hpath' hpath hmem hcycle

/-- A header of the cycle of a header is one of the block. -/
theorem CycleHeader.trans (hentry : graph.SingleEntry) {outer inner b : BlockId}
    (houter : graph.CycleHeader outer inner) (hinner : graph.CycleHeader inner b) :
    graph.CycleHeader outer b := by
  obtain ⟨hcycle, s, hs, path, hpath, hmem⟩ := hinner
  refine ⟨houter.1.trans hcycle, s, hs, path, hpath, ?_⟩
  obtain ⟨p, q, rfl⟩ := List.append_of_mem hmem
  have hin := houter.mem_path hentry hs (TreePath.suffix (p := b :: p) hpath)
  exact List.mem_append_right p (List.mem_cons_of_mem inner hin)

/-- Where cycles have single entries, their headers are ordered along all searches. -/
theorem headerOrder_cycleHeader (hentry : graph.SingleEntry) (hs : s ∈ graph.starts) :
    graph.HeaderOrder s graph.CycleHeader where
  back id path next hpath hedge hmem := by
    rcases List.mem_cons.mp hmem with rfl | hnext
    · exact .inl rfl
    · exact .inr ⟨commonCycle_of_edge (hpath.reaches hmem) hedge (.refl next),
        s, hs, path, hpath, hnext⟩
  hand id path next header hpath hedge hheader hmem := by
    rcases List.mem_cons.mp hmem with rfl | hin
    · exact .inl rfl
    · exact .inr ⟨commonCycle_of_edge (hpath.reaches hmem) hedge hheader.1.symm.reaches,
        s, hs, path, hpath, hin⟩
  -- this is the only place where the single entries are needed
  below b path header hpath hheader := hheader.mem_path hentry hs hpath
  nested b p inner q outer hpath houter hinner hheader :=
    ⟨hheader.1.trans hinner.1.symm, s, hs, q, TreePath.suffix (p := b :: p) hpath, houter⟩

/-- Then the headers above a block are on its path and on a cycle with it. -/
theorem cycleHeader_of_outer (hrange : graph.InRange) (hentry : graph.SingleEntry)
    {b header : BlockId} (h : graph.analyzeLoops.value.Outer b header) :
    graph.CycleHeader header b := by
  obtain ⟨hsound, _⟩ := searchAll_sound hrange hrange.starts
    (fun start hstart => headerOrder_cycleHeader hentry hstart) graph.linksInRange_replicate
    (graph.sound_replicate graph.CycleHeader)
  rw [outer_analyzeLoops hrange] at h
  induction h with
  | single hheader => exact hsound _ _ hheader
  | tail _ hheader ih => exact (hsound _ _ hheader).trans hentry ih

/-- Then no merge of headers is endless. -/
theorem quiet_of_singleEntry (hrange : graph.InRange) (hentry : graph.SingleEntry) :
    Quiet graph.analyzeLoops.events := by
  rw [events_analyzeLoops]
  exact (searchAll_sound hrange hrange.starts
    (fun start hstart => headerOrder_cycleHeader hentry hstart) graph.linksInRange_replicate
    (graph.sound_replicate graph.CycleHeader)).2

end RamOverlay.Graph
