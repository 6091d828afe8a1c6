import Mathlib.Data.List.Nodup
import Mathlib.Logic.Relation
import RamOverlay.Flow.Nesting

/-!
# Merging a header into a chain

What `mergeHeader` does to the header chains. Two facts hold for different reasons:

* **`mergeHeader_grows`**: no block loses a header, whatever the order of the chains is, as long as
  the merge comes to its end.
* **`mergeHeader_ordered`**: where the path orders all headers of a block, the merge does come to
  its end, and it makes headers of none but those that belong there.
-/

namespace RamOverlay.Graph

/-! ## Depths -/

section Depth

variable {path p q : Path} {a b : BlockId}

/-- The depth of a block is the number of blocks from it to the start. -/
theorem depthOn_append (ha : a ∉ p) : depthOn (p ++ a :: q) a = q.length + 1 := by
  induction p with
  | nil => simp [depthOn]
  | cons b p ih =>
    have hne : b ≠ a := fun h => ha (h ▸ List.mem_cons_self)
    rw [← ih (fun h => ha (List.mem_cons_of_mem b h))]
    simp [depthOn, hne]

theorem depthOn_le_length : depthOn path a ≤ path.length := by
  simpa [depthOn] using (List.dropWhile_sublist (· ≠ a)).length_le

theorem depthOn_pos (ha : a ∈ path) : 0 < depthOn path a := by
  obtain ⟨p, q, rfl, hp⟩ := List.eq_append_cons_of_mem ha
  rw [depthOn_append hp]
  omega

/-- What is below a block on the path has a smaller depth. -/
theorem depthOn_lt_of_mem (hnodup : (p ++ a :: q).Nodup) (hb : b ∈ q) :
    depthOn (p ++ a :: q) b < depthOn (p ++ a :: q) a := by
  obtain ⟨hp, haq, hdisjoint⟩ := List.nodup_append.mp hnodup
  obtain ⟨q₁, q₂, rfl, hq₁⟩ := List.eq_append_cons_of_mem hb
  have ha : a ∉ p := fun h => hdisjoint a h a List.mem_cons_self rfl
  -- `b` comes once only, so what stands from it on is shorter
  have hb : b ∉ p ++ a :: q₁ := by
    have hbp : b ∉ p := fun h => hdisjoint b h b (by simp) rfl
    have hba : b ≠ a := by
      rintro rfl
      exact (List.nodup_cons.mp haq).1 (by simp)
    simp [hbp, hba, hq₁]
  rw [depthOn_append ha, show p ++ a :: (q₁ ++ b :: q₂) = (p ++ a :: q₁) ++ b :: q₂ by simp,
    depthOn_append hb]
  simp only [List.length_append, List.length_cons]
  omega

/-- Of two blocks on the path, one is below the other. -/
theorem below_or_below (ha : a ∈ path) (hb : b ∈ path) (hne : a ≠ b) :
    (∃ p q, path = p ++ a :: q ∧ b ∈ q) ∨ ∃ p q, path = p ++ b :: q ∧ a ∈ q := by
  obtain ⟨p, q, rfl⟩ := List.append_of_mem ha
  rcases List.mem_append.mp hb with hbp | hbq
  · obtain ⟨p₁, p₂, rfl⟩ := List.append_of_mem hbp
    exact .inr ⟨p₁, p₂ ++ a :: q, by simp, by simp⟩
  · exact .inl ⟨p, q, rfl, (List.mem_cons.mp hbq).resolve_left (Ne.symm hne)⟩

/-- Blocks of a path without repetitions have different depths. -/
theorem depthOn_inj (hnodup : path.Nodup) (ha : a ∈ path) (hb : b ∈ path)
    (h : depthOn path a = depthOn path b) : a = b := by
  by_contra hne
  rcases below_or_below ha hb hne with ⟨p, q, rfl, hbq⟩ | ⟨p, q, rfl, haq⟩
  · have := depthOn_lt_of_mem hnodup hbq
    omega
  · have := depthOn_lt_of_mem hnodup haq
    omega

end Depth

/-! ## Header chains -/

/-- `header` is in the header chain of `b`. -/
def Search.Above (search : Search) (b header : BlockId) : Prop :=
  Relation.TransGen (fun b header => search.header? b = some header) b header

/-- No block loses a header. -/
def Search.Grows (search search' : Search) : Prop :=
  ∀ b header, search.Above b header → search'.Above b header

/-- All headers are such as `R` allows. -/
def Search.Sound (R : BlockId → BlockId → Prop) (search : Search) : Prop :=
  ∀ b header, search.header? b = some header → R header b

theorem Search.Sound.mono {R R' : BlockId → BlockId → Prop} {search : Search}
    (h : search.Sound R) (himp : ∀ header b, R header b → R' header b) : search.Sound R' :=
  fun b header hb => himp header b (h b header hb)

theorem Search.Grows.trans {s₁ s₂ s₃ : Search} (h₁ : s₁.Grows s₂) (h₂ : s₂.Grows s₃) :
    s₁.Grows s₃ := fun b header h => h₂ b header (h₁ b header h)

/-- It is enough that every link is kept as a chain. -/
theorem Search.grows_of_links {search search' : Search}
    (h : ∀ b header, search.header? b = some header → search'.Above b header) :
    search.Grows search' := by
  intro b header habove
  induction habove with
  | single hlink => exact h _ _ hlink
  | tail _ hlink ih => exact ih.trans (h _ _ hlink)

section SetHeader

variable (search : Search) (id header b : BlockId)

@[simp] theorem visited_setHeader : (search.setHeader id header).visited = search.visited := rfl

@[simp] theorem size_links_setHeader :
    (search.setHeader id header).links.size = search.links.size := by
  simp [Search.setHeader]

@[simp] theorem secondary_setHeader :
    (search.setHeader id header).links.map (·.secondary?) = search.links.map (·.secondary?) := by
  apply Array.ext
  · simp
  · intro i hi hi'
    simp only [Search.setHeader, Array.getElem_map, Array.getElem_modify]
    split <;> rfl

theorem header?_setHeader_self (hid : id < search.links.size) :
    (search.setHeader id header).header? id = some header := by
  simp [Search.setHeader, Search.header?, hid, Array.getElem_modify]

theorem header?_setHeader_of_ne (hne : b ≠ id) :
    (search.setHeader id header).header? b = search.header? b := by
  simp [Search.setHeader, Search.header?, Array.getElem?_modify, Ne.symm hne]

end SetHeader

section Merge

variable {path : Path} {fuel : Nat} {id header : BlockId} {search : Search}

@[simp] theorem visited_mergeHeader (path : Path) (fuel : Nat) (id header : BlockId)
    (search : Search) : (mergeHeader path fuel id header search).1.visited = search.visited := by
  fun_induction mergeHeader path fuel id header search <;> simp_all

@[simp] theorem secondary_mergeHeader (path : Path) (fuel : Nat) (id header : BlockId)
    (search : Search) : (mergeHeader path fuel id header search).1.links.map (·.secondary?) =
      search.links.map (·.secondary?) := by
  fun_induction mergeHeader path fuel id header search <;> simp_all

/-- A block that has a header is a block of the graph. -/
theorem Search.lt_size_of_header? (h : search.header? id = some header) :
    id < search.links.size := by
  unfold Search.header? at h
  by_contra hid
  simp [Array.getElem?_eq_none (Nat.le_of_not_lt hid)] at h

/-- A new link is in order if its two blocks are. -/
theorem Search.Sound.setHeader {R : BlockId → BlockId → Prop} (h : search.Sound R)
    (hR : R header id) : (search.setHeader id header).Sound R := by
  intro b g hb
  by_cases hne : b = id
  · subst hne
    have hid : b < search.links.size := by
      simpa using lt_size_of_header? hb
    rw [header?_setHeader_self _ _ _ hid] at hb
    exact Option.some.inj hb ▸ hR
  · rw [header?_setHeader_of_ne _ _ _ _ hne] at hb
    exact h b g hb

/-- A merge brings no blocks into the chains but `header`, and makes no block its own header. -/
theorem sound_mergeHeader {P : BlockId → Prop} (hsound : search.Sound fun g b => P g ∧ g ≠ b)
    (hheader : P header) (hne : id ≠ header) :
    (mergeHeader path fuel id header search).1.Sound fun g b => P g ∧ g ≠ b := by
  fun_induction mergeHeader path fuel id header search with
  | case1 => exact hsound
  | case2 => exact hsound.setHeader ⟨hheader, hne.symm⟩
  | case3 => exact hsound
  | case4 fuel id header search outer houter houterne _ ih =>
    exact ih (hsound.setHeader ⟨hheader, hne.symm⟩) (hsound id outer houter).1 (Ne.symm houterne)
  | case5 fuel id header search outer houter houterne _ ih => exact ih hsound hheader houterne

/-- A merge that comes to its end makes `header` a header of `id` and takes none away. -/
theorem mergeHeader_grows (hrange : search.Sound fun header _ => header < search.links.size)
    (hid : id < search.links.size) (hheader : header < search.links.size)
    (hend : (mergeHeader path fuel id header search).2 = true) :
    search.Grows (mergeHeader path fuel id header search).1 ∧
      (mergeHeader path fuel id header search).1.Above id header := by
  fun_induction mergeHeader path fuel id header search with
  | case1 => cases hend
  | case2 fuel id header search hnone =>
    refine ⟨Search.grows_of_links fun b g hb => ?_, .single (header?_setHeader_self _ _ _ hid)⟩
    have hne : b ≠ id := by
      rintro rfl
      simp [hnone] at hb
    exact .single ((header?_setHeader_of_ne _ _ _ _ hne).trans hb)
  | case3 fuel id header search houter => exact ⟨fun b g h => h, .single houter⟩
  | case4 fuel id header search outer houter hne hlt ih =>
    -- the chain goes from `id` to `header`, and the merge brings `outer` back above `header`
    have hsize : (search.setHeader id header).links.size = search.links.size := by simp
    obtain ⟨hgrows, habove⟩ := ih (hsize ▸ hrange.setHeader hheader) (hsize ▸ hheader)
      (hsize ▸ hrange id outer houter) hend
    have hset := hgrows id header (.single (header?_setHeader_self _ _ _ hid))
    refine ⟨Search.grows_of_links fun b g hb => ?_, hset⟩
    by_cases hbid : b = id
    · subst hbid
      obtain rfl : outer = g := Option.some.inj (houter.symm.trans hb)
      exact Relation.TransGen.trans hset habove
    · exact hgrows b g (.single ((header?_setHeader_of_ne _ _ _ _ hbid).trans hb))
  | case5 fuel id header search outer houter hne hge ih =>
    obtain ⟨hgrows, habove⟩ := ih hrange (hrange id outer houter) hheader hend
    exact ⟨hgrows, Relation.TransGen.trans (hgrows id outer (.single houter)) habove⟩

/-- The headers that `R` allows to the blocks of the path are ordered along the path: they are
below the block, and each is a header of those above it. -/
structure Ordered (path : Path) (R : BlockId → BlockId → Prop) : Prop where
  nodup : path.Nodup
  below : ∀ p b q, path = p ++ b :: q → ∀ header, R header b → header ∈ q
  nested : ∀ p b q inner r, path = p ++ b :: (q ++ inner :: r) →
    ∀ outer ∈ r, R inner b → R outer b → R outer inner

/-- Of two headers of a block of the path, one is a header of the other one. -/
theorem Ordered.header_of_depthOn_lt {R : BlockId → BlockId → Prop} (hord : Ordered path R)
    {b inner outer : BlockId} (hb : b ∈ path) (hinner : R inner b) (houter : R outer b)
    (h : depthOn path outer < depthOn path inner) : R outer inner := by
  obtain ⟨p, q, rfl⟩ := List.append_of_mem hb
  have hin := hord.below p b q rfl inner hinner
  have hout := hord.below p b q rfl outer houter
  obtain ⟨q, r, rfl⟩ := List.append_of_mem hin
  rcases List.mem_append.mp hout with hq | hr
  · -- `outer` cannot be above `inner`, as its depth is smaller
    obtain ⟨q₁, q₂, rfl⟩ := List.append_of_mem hq
    have hnodup := hord.nodup
    rw [show p ++ b :: (q₁ ++ outer :: q₂ ++ inner :: r) =
      (p ++ b :: q₁) ++ outer :: (q₂ ++ inner :: r) by simp] at hnodup h
    have := depthOn_lt_of_mem hnodup (b := inner) (by simp)
    omega
  · rcases List.mem_cons.mp hr with rfl | hr
    · omega
    · exact hord.nested p b q inner r rfl outer hr hinner houter

/-- Where the path orders the headers, a merge comes to its end within the depth of `id`, allows no
other headers than `R`, and changes the headers of blocks on the path only. -/
theorem mergeHeader_ordered {R : BlockId → BlockId → Prop} (hord : Ordered path R)
    (hsound : search.Sound R) (hid : id ∈ path) (hR : R header id)
    (hfuel : depthOn path id ≤ fuel) :
    (mergeHeader path fuel id header search).2 = true ∧
      (mergeHeader path fuel id header search).1.Sound R ∧
      ∀ b ∉ path, (mergeHeader path fuel id header search).1.header? b = search.header? b := by
  have below : ∀ {b g}, b ∈ path → R g b → g ∈ path ∧ depthOn path g < depthOn path b := by
    intro b g hb hg
    obtain ⟨p, q, rfl⟩ := List.append_of_mem hb
    have hgq := hord.below p b q rfl g hg
    exact ⟨List.mem_append_right p (List.mem_cons_of_mem b hgq), depthOn_lt_of_mem hord.nodup hgq⟩
  -- each case of the recursion goes on at a block with a smaller depth
  fun_induction mergeHeader path fuel id header search with
  | case1 id header search =>
    have := depthOn_pos hid
    omega
  | case2 fuel id header search hnone =>
    refine ⟨rfl, hsound.setHeader hR, fun b hb => header?_setHeader_of_ne _ _ _ _ ?_⟩
    rintro rfl
    exact hb hid
  | case3 fuel id header search houter => exact ⟨rfl, hsound, fun b _ => rfl⟩
  | case4 fuel id header search outer houter hne hlt ih =>
    have hRouter := hord.header_of_depthOn_lt hid hR (hsound id outer houter) hlt
    have hheader := below hid hR
    obtain ⟨hend, hsound', hframe⟩ := ih (hsound.setHeader hR) hheader.1 hRouter (by omega)
    refine ⟨hend, hsound', fun b hb => (hframe b hb).trans (header?_setHeader_of_ne _ _ _ _ ?_)⟩
    rintro rfl
    exact hb hid
  | case5 fuel id header search outer houter hne hge ih =>
    have hRo := hsound id outer houter
    have houter' := below hid hRo
    have hheader := below hid hR
    have hlt : depthOn path header < depthOn path outer := by
      have hdepth : depthOn path outer ≠ depthOn path header :=
        fun h => hne (depthOn_inj hord.nodup houter'.1 hheader.1 h)
      omega
    exact ih hsound houter'.1 (hord.header_of_depthOn_lt hid hRo hR hlt) (by omega)

end Merge

/-! ## Tagging a block -/

section Tag

variable {graph : Graph} {path : Path} {id header : BlockId} {search : Search}

@[simp] theorem visited_tagHeader (graph : Graph) (path : Path) (id header : BlockId)
    (search : Search) : (graph.tagHeader path id header search).value.visited = search.visited := by
  unfold tagHeader
  split <;> simp

@[simp] theorem secondary_tagHeader (graph : Graph) (path : Path) (id header : BlockId)
    (search : Search) : (graph.tagHeader path id header search).value.links.map (·.secondary?) =
      search.links.map (·.secondary?) := by
  unfold tagHeader
  split <;> simp

/-- Tagging makes no block its own header, and keeps what is true of all headers. -/
theorem sound_tagHeader {P : BlockId → Prop} (hsound : search.Sound fun g b => P g ∧ g ≠ b)
    (hheader : P header) :
    (graph.tagHeader path id header search).value.Sound fun g b => P g ∧ g ≠ b := by
  unfold tagHeader
  split
  next => exact hsound
  next hne => exact sound_mergeHeader hsound hheader hne

/-- Unless reported as endless, tagging makes `header` a header of `id` and takes none away. -/
theorem tagHeader_grows (hrange : search.Sound fun header _ => header < search.links.size)
    (hid : id < search.links.size) (hheader : header < search.links.size)
    (hend : (graph.tagHeader path id header search).events = []) :
    search.Grows (graph.tagHeader path id header search).value ∧
      (id = header ∨ (graph.tagHeader path id header search).value.Above id header) := by
  unfold tagHeader at hend ⊢
  split
  next heq => exact ⟨fun _ _ h => h, .inl heq⟩
  next hne =>
    rw [if_neg hne] at hend
    -- a merge that did not end would have been reported
    have hmerge : (mergeHeader path (graph.size + 1) id header search).2 = true := by
      by_contra hmerge
      simp [hmerge] at hend
    obtain ⟨hgrows, habove⟩ := mergeHeader_grows hrange hid hheader hmerge
    exact ⟨hgrows, .inr habove⟩

/-- Where the path orders the headers, tagging reports nothing and makes headers of none but those
that `R` allows. -/
theorem tagHeader_ordered {R : BlockId → BlockId → Prop} (hord : Ordered path R)
    (hsound : search.Sound R) (hid : id ∈ path) (hR : id = header ∨ R header id)
    (hlength : path.length ≤ graph.size) :
    (graph.tagHeader path id header search).events = [] ∧
      (graph.tagHeader path id header search).value.Sound R ∧
      ∀ b ∉ path,
        (graph.tagHeader path id header search).value.header? b = search.header? b := by
  unfold tagHeader
  split
  next => exact ⟨rfl, hsound, fun b _ => rfl⟩
  next hne =>
    -- each step of a merge goes down the path, so there is fuel for all of them
    have hfuel : depthOn path id ≤ graph.size + 1 :=
      Nat.le_succ_of_le (Nat.le_trans depthOn_le_length hlength)
    obtain ⟨hend, hrest⟩ := mergeHeader_ordered hord hsound hid (hR.resolve_left hne) hfuel
    exact ⟨by simp [hend], hrest⟩

end Tag

end RamOverlay.Graph
