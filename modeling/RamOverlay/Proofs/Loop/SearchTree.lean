import Mathlib.Data.Nat.Find
import RamOverlay.Proofs.Loop.Route

/-!
# The tree of a depth-first search

Which way a depth-first search from a block comes to each of the blocks, told by the edges alone. A
search takes the edges of a block in order, and enters nothing twice. So it goes along a path if and
only if none of the edges that it takes before lead to a block of the path.

* **`Earlier`**: the blocks that a search enters and leaves before it is on a path.
* **`TreePath`**: the paths on which a search can be.
* **`TreePath.unique`**: two searches that enter a part of the graph through the same block go on
  along the same paths, as long as they stay in the part.
-/

namespace RamOverlay.Graph

variable {graph : Graph} {start s s' x : BlockId}

/-- The path of a search from `x` back to the start is left only when all that can be reached from
the edges before has been entered: `x` is reached from such an edge without the path below it. -/
def Earlier (graph : Graph) : Path → BlockId → Prop
  | next :: id :: path, x =>
    (∃ other ∈ (graph.successors id).takeWhile (· ≠ next),
      ∃ r, graph.Route other r x ∧ ∀ b ∈ r, b ∉ id :: path) ∨ graph.Earlier (id :: path) x
  | _, _ => False

/-- The path of the search from `start` when it enters the head of the path. -/
inductive TreePath (graph : Graph) (start : BlockId) : Path → Prop where
  | start : TreePath graph start [start]
  | step {id next : BlockId} {path : Path} (hpath : TreePath graph start (id :: path))
      (hedge : next ∈ graph.successors id) (hnew : next ∉ id :: path)
      (hfirst : ¬ graph.Earlier (next :: id :: path) next) :
      TreePath graph start (next :: id :: path)

theorem TreePath.nodup {path : Path} (h : graph.TreePath start path) : path.Nodup := by
  induction h with
  | start => simp
  | step _ _ hnew _ ih => exact List.nodup_cons.mpr ⟨hnew, ih⟩

/-- No block of a path comes twice above one of its blocks. -/
theorem TreePath.nodup_above {p q : Path} {z : BlockId} (h : graph.TreePath start (p ++ z :: q)) :
    (p ++ [z]).Nodup := by
  have hnodup := h.nodup
  rw [List.append_cons] at hnodup
  exact (List.nodup_append.mp hnodup).1

/-- No block of the path is both above a place and from there on. -/
theorem TreePath.not_mem_of_above {p q : Path} {b : BlockId} (h : graph.TreePath start (p ++ q))
    (hb : b ∈ p) : b ∉ q :=
  fun hbq => (List.nodup_append.mp h.nodup).2.2 b hb b hbq rfl

theorem TreePath.not_below {p q : Path} {b z : BlockId} (h : graph.TreePath start (p ++ z :: q))
    (hb : b ∈ p ++ [z]) : b ∉ q :=
  TreePath.not_mem_of_above (List.append_cons p z q ▸ h) hb

/-- A path from the start to a block further down is a path of the search, too. -/
theorem TreePath.suffix {p q : Path} (h : graph.TreePath start (p ++ x :: q)) :
    graph.TreePath start (x :: q) := by
  induction p with
  | nil => exact h
  | cons b p ih =>
    refine ih ?_
    rw [List.cons_append] at h
    generalize hr : p ++ x :: q = r at h
    cases h with
    | start => simp at hr
    | step hpath _ _ _ => exact hpath

/-- The path goes along edges. -/
theorem TreePath.edge {y : BlockId} {path : Path} (h : graph.TreePath start (x :: y :: path)) :
    x ∈ graph.successors y := by
  cases h with
  | step _ hedge _ _ => exact hedge

/-- The lower end of the path is the start. -/
theorem TreePath.getLast_mem {path : Path} (h : graph.TreePath start path) : start ∈ path := by
  induction h with
  | start => simp
  | step _ _ _ _ ih => exact List.mem_cons_of_mem _ ih

/-- A block is not entered before itself. -/
theorem TreePath.not_earlier {path : Path} (h : graph.TreePath start (x :: path)) :
    ¬ graph.Earlier (x :: path) x := by
  cases h with
  | start => exact id
  | step _ _ _ hfirst => exact hfirst

/-- A route goes on along one more edge. -/
theorem Route.snoc {u v w : BlockId} {p : List BlockId} (h : graph.Route u p v)
    (hedge : w ∈ graph.successors v) : graph.Route u (p ++ [w]) w := by
  induction h with
  | refl u => exact .step hedge (.refl w)
  | step hfirst _ ih => exact .step hfirst (ih hedge)

theorem head?_append_cons (p q : List BlockId) (z : BlockId) :
    (p ++ z :: q).head? = (p ++ [z]).head? := by
  cases p <;> rfl

theorem head?_of_cons_eq_append {x z : BlockId} {l p q : List BlockId}
    (h : x :: l = p ++ z :: q) : (p ++ [z]).head? = some x := by
  rw [← head?_append_cons p q, ← h, List.head?_cons]

/-- The part of the path above `z` is a route from `z`. -/
theorem TreePath.route {p q : Path} {z : BlockId} (h : graph.TreePath start (p ++ z :: q))
    (hx : (p ++ [z]).head? = some x) : graph.Route z (z :: p.reverse) x := by
  induction p generalizing x with
  | nil =>
    obtain rfl : z = x := by simpa using hx
    exact .refl z
  | cons b p ih =>
    obtain rfl : b = x := by simpa using hx
    cases hp : p ++ z :: q with
    | nil => simp at hp
    | cons y r =>
      rw [List.cons_append, hp] at h
      -- the last edge of the path is the last one of the route
      obtain ⟨hpath, hedge⟩ : graph.TreePath start (y :: r) ∧ b ∈ graph.successors y := by
        cases h with
        | step hpath hedge _ _ => exact ⟨hpath, hedge⟩
      have hy := head?_of_cons_eq_append hp.symm
      simpa using (ih (hp ▸ hpath) hy).snoc hedge

/-- The whole path is a route from the start. -/
theorem TreePath.route_start {path : Path} (h : graph.TreePath start (x :: path)) :
    graph.Route start (x :: path).reverse x := by
  generalize hp : x :: path = p at h
  induction h generalizing x path with
  | start =>
    obtain ⟨rfl, rfl⟩ := List.cons_eq_cons.mp hp
    exact .refl x
  | step _ hedge _ _ ih =>
    obtain ⟨rfl, rfl⟩ := List.cons_eq_cons.mp hp
    rw [List.reverse_cons]
    exact (ih rfl).snoc hedge

/-- All blocks of a path reach its last one. -/
theorem TreePath.reaches {path : Path} {z : BlockId} (h : graph.TreePath start (x :: path))
    (hz : z ∈ x :: path) : graph.Reaches z x := by
  obtain ⟨p, q, hp⟩ := List.append_of_mem hz
  rw [hp] at h
  exact ⟨_, h.route (head?_of_cons_eq_append hp)⟩

theorem Earlier.append {path : Path} (h : graph.Earlier path x) (p : Path) :
    graph.Earlier (p ++ path) x := by
  induction p with
  | nil => exact h
  | cons b p ih =>
    rw [List.cons_append]
    cases hp : p ++ path with
    | nil => simp [hp, Earlier] at ih
    | cons c r =>
      rw [hp] at ih
      exact Or.inr ih

/-! ## Two paths -/

/-- Of two lists, one is the end of the other, or they differ before a common end. -/
theorem exists_fork (l l' : List BlockId) :
    l <:+ l' ∨ l' <:+ l ∨ ∃ a a' c z z', z ≠ z' ∧ l = a ++ z :: c ∧ l' = a' ++ z' :: c := by
  induction l with
  | nil => exact .inl (List.nil_suffix)
  | cons x l ih =>
    rcases ih with ⟨d, rfl⟩ | hl' | ⟨a, a', c, z, z', hne, rfl, rfl⟩
    · rcases List.eq_nil_or_concat d with rfl | ⟨d, y, rfl⟩
      · exact .inr (.inl (by simp))
      · -- the end goes on for one more block, or the lists fork here
        by_cases hxy : x = y
        · subst hxy
          exact .inl ⟨d, by simp⟩
        · exact .inr (.inr ⟨[], d, l, x, y, hxy, rfl, by simp⟩)
    · exact .inr (.inl (hl'.trans (List.suffix_cons x l)))
    · exact .inr (.inr ⟨x :: a, a', c, z, z', hne, rfl, rfl⟩)

/-- A list without repetition ends in no shorter list with the same first member. -/
theorem eq_of_suffix_of_head? {l l' : List BlockId} (h : l <:+ l') (hnodup : l'.Nodup)
    (hx : l.head? = some x) (hx' : l'.head? = some x) : l = l' := by
  obtain ⟨d, rfl⟩ := h
  cases d with
  | nil => rfl
  | cons b d =>
    obtain rfl : b = x := by simpa using hx'
    have hmem : b ∈ d ++ l := List.mem_append_right d (List.mem_of_head? hx)
    exact absurd hmem (List.nodup_cons.mp hnodup).1

/-- What comes before the last two members of a list comes before the last one. -/
theorem mem_of_concat_eq {q a c : List BlockId} {b e z d : BlockId}
    (h : q ++ [e] = a ++ z :: d :: c) (hb : b ∈ a ++ [z]) : b ∈ q := by
  have hq : q = (a ++ [z]) ++ (d :: c).dropLast := by
    have hlast : (q ++ [e]).dropLast = q := List.dropLast_concat
    rw [← hlast, h, List.append_cons,
      List.dropLast_append_of_ne_nil (List.cons_ne_nil d c)]
  rw [hq]
  exact List.mem_append_left _ hb

/-- Of two members of a list, one comes before the other. -/
theorem mem_takeWhile_ne {l : List BlockId} {z z' : BlockId} (hz : z ∈ l) (hz' : z' ∈ l)
    (hne : z ≠ z') : z ∈ l.takeWhile (· ≠ z') ∨ z' ∈ l.takeWhile (· ≠ z) := by
  induction l with
  | nil => cases hz
  | cons b l ih =>
    -- whichever of the two is met first is before the other
    by_cases hb : b = z
    · subst hb
      simp [hne]
    · by_cases hb' : b = z'
      · subst hb'
        simp [hb]
      · have hz := (List.mem_cons.mp hz).resolve_left (Ne.symm hb)
        have hz' := (List.mem_cons.mp hz').resolve_left (Ne.symm hb')
        simpa [hb, hb', Ne.symm hb, Ne.symm hb'] using ih hz hz'

/-- Two paths leave `d` by different edges, and what the first one goes to leads to the head of the
second one without what is below. Then the edge of the first is not taken before that of the second:
the second path would come too late. -/
theorem TreePath.not_before {a a' c c' : Path} {z z' d x x' : BlockId} {t : List BlockId}
    (h : graph.TreePath s (a ++ z :: d :: c)) (h' : graph.TreePath s' (a' ++ z' :: d :: c'))
    (hx : (a ++ [z]).head? = some x) (hx' : (a' ++ [z']).head? = some x')
    (hoff : ∀ b ∈ a ++ [z], b ∉ d :: c') (hroute : graph.Route x t x')
    (hroff : ∀ b ∈ t, b ∉ d :: c') : z ∉ (graph.successors d).takeWhile (· ≠ z') := by
  intro hz
  obtain ⟨r, hr, hmem⟩ := (h.route hx).trans hroute
  -- over `z` the search would have come to the end of the second path before it took `z'`
  have hearlier : graph.Earlier (z' :: d :: c') x' := by
    refine Or.inl ⟨z, hz, r, hr, fun b hb => ?_⟩
    rcases (hmem b).1 hb with hb | hb
    · exact hoff b (by simpa [or_comm] using hb)
    · exact hroff b hb
  have hpath : a' ++ z' :: d :: c' = x' :: ((a' ++ [z']).tail ++ d :: c') := by
    rw [← List.cons_append, List.cons_head?_tail hx', ← List.append_cons]
  have hfirst := hearlier.append a'
  rw [hpath] at h' hfirst
  exact h'.not_earlier hfirst

/-- Two searches that come to `e` go on to `x` along the same path, if what they go through on the
way from `e` is not on the way of the other one to `e`. -/
theorem TreePath.unique {q q' r r' : Path} {e : BlockId} (h : graph.TreePath s (q ++ e :: r))
    (h' : graph.TreePath s' (q' ++ e :: r')) (hhead : (q ++ [e]).head? = (q' ++ [e]).head?)
    (hr : ∀ b ∈ q, b ∉ r') (hr' : ∀ b ∈ q', b ∉ r) : q = q' := by
  obtain ⟨x, hx⟩ : ∃ x, (q ++ [e]).head? = some x := by
    cases q <;> simp
  have hx' := hhead ▸ hx
  rcases exists_fork (q ++ [e]) (q' ++ [e]) with hd | hd | ⟨a, a', c, z, z', hne, hq, hq'⟩
  · exact List.append_cancel_right (eq_of_suffix_of_head? hd h'.nodup_above hx hx')
  · exact (List.append_cancel_right (eq_of_suffix_of_head? hd h.nodup_above hx' hx)).symm
  · exfalso
    rw [List.append_cons, hq] at h
    rw [List.append_cons, hq'] at h'
    cases c with
    | nil =>
      have hz : z = e := by simpa using (congrArg List.getLast? hq).symm
      have hz' : z' = e := by simpa using (congrArg List.getLast? hq').symm
      exact hne (hz.trans hz'.symm)
    | cons d c =>
      -- the two edges leave `d`, and the blocks before it are inside both ways from `e`
      have hmem : ∀ b ∈ a ++ [z], b ∈ q := fun b hb => mem_of_concat_eq hq hb
      have hmem' : ∀ b ∈ a' ++ [z'], b ∈ q' := fun b hb => mem_of_concat_eq hq' hb
      have hhead : (a ++ [z]).head? = some x := by
        rw [← head?_append_cons a (d :: c), ← hq, hx]
      have hhead' : (a' ++ [z']).head? = some x := by
        rw [← head?_append_cons a' (d :: c), ← hq', hx']
      rw [List.append_assoc, List.cons_append, List.cons_append] at h h'
      have hoff : ∀ b ∈ a ++ [z], b ∉ d :: (c ++ r') := fun b hb => by
        have hbelow := h.not_below hb
        simp only [List.mem_cons, List.mem_append, not_or] at hbelow ⊢
        exact ⟨hbelow.1, hbelow.2.1, hr b (hmem b hb)⟩
      have hoff' : ∀ b ∈ a' ++ [z'], b ∉ d :: (c ++ r) := fun b hb => by
        have hbelow := h'.not_below hb
        simp only [List.mem_cons, List.mem_append, not_or] at hbelow ⊢
        exact ⟨hbelow.1, hbelow.2.1, hr' b (hmem' b hb)⟩
      rcases mem_takeWhile_ne h.suffix.edge h'.suffix.edge hne with hbefore | hbefore
      · refine h.not_before h' hhead hhead' hoff (.refl x) (fun b hb => ?_) hbefore
        rw [List.mem_singleton.mp hb]
        exact hoff x (List.mem_of_head? hhead)
      · refine h'.not_before h hhead' hhead hoff' (.refl x) (fun b hb => ?_) hbefore
        rw [List.mem_singleton.mp hb]
        exact hoff' x (List.mem_of_head? hhead')

/-- A path of the search begins at the start. -/
theorem TreePath.eq_concat {path : Path} (h : graph.TreePath start path) :
    ∃ q, path = q ++ [start] := by
  induction h with
  | start => exact ⟨[], rfl⟩
  | @step id next path _ _ _ _ ih =>
    obtain ⟨q, hq⟩ := ih
    exact ⟨next :: q, by rw [hq, List.cons_append]⟩

/-- A search comes to a block along one path. -/
theorem TreePath.unique_path {p p' : Path} (h : graph.TreePath start (x :: p))
    (h' : graph.TreePath start (x :: p')) : p = p' := by
  obtain ⟨q, hq⟩ := h.eq_concat
  obtain ⟨q', hq'⟩ := h'.eq_concat
  have heq : q = q' := by
    refine (hq ▸ h).unique (hq' ▸ h') ?_ (by simp) (by simp)
    rw [← hq, ← hq', List.head?_cons, List.head?_cons]
  exact (List.cons_eq_cons.mp (hq.trans (heq ▸ hq'.symm))).2

/-- Where two paths of one search part, they do so at a block. -/
theorem TreePath.fork {p p' : Path} {x y : BlockId} (h : graph.TreePath start (x :: p))
    (h' : graph.TreePath start (y :: p')) :
    x :: p <:+ y :: p' ∨ y :: p' <:+ x :: p ∨ ∃ a a' z z' d c, z ≠ z' ∧
      x :: p = a ++ z :: d :: c ∧ y :: p' = a' ++ z' :: d :: c := by
  rcases exists_fork (x :: p) (y :: p') with hsuffix | hsuffix | ⟨a, a', c, z, z', hne, hp, hp'⟩
  · exact .inl hsuffix
  · exact .inr (.inl hsuffix)
  · cases c with
    | nil =>
      -- both paths end at the start
      obtain ⟨q, hq⟩ := h.eq_concat
      obtain ⟨q', hq'⟩ := h'.eq_concat
      have hz : start = z := by simpa using congrArg List.getLast? (hq.symm.trans hp)
      have hz' : start = z' := by simpa using congrArg List.getLast? (hq'.symm.trans hp')
      exact absurd (hz.symm.trans hz') hne
    | cons d c => exact .inr (.inr ⟨a, a', z, z', d, c, hne, hp, hp'⟩)

/-- Among reached blocks there is one with the shortest path. -/
theorem exists_shortest {Z : BlockId → Prop} (hmem : ∃ z, Z z)
    (hreached : ∀ z, Z z → ∃ p, graph.TreePath start (z :: p)) :
    ∃ z p, Z z ∧ graph.TreePath start (z :: p) ∧
      ∀ y q, Z y → graph.TreePath start (y :: q) → p.length ≤ q.length := by
  classical
  have hshort : ∃ n z p, Z z ∧ graph.TreePath start (z :: p) ∧ p.length = n := by
    obtain ⟨z, hz⟩ := hmem
    obtain ⟨p, hp⟩ := hreached z hz
    exact ⟨p.length, z, p, hz, hp, rfl⟩
  obtain ⟨z, p, hz, hp, hlength⟩ := Nat.find_spec hshort
  exact ⟨z, p, hz, hp, fun y q hy hq => hlength ▸ Nat.find_min' hshort ⟨y, q, hy, hq, rfl⟩⟩

/-- The shortest path to one of some blocks has none of them further down. -/
theorem TreePath.not_mem_of_shortest {Z : BlockId → Prop} {p a c : Path} {z k b : BlockId}
    (h : graph.TreePath start (z :: p))
    (hmin : ∀ y q, Z y → graph.TreePath start (y :: q) → p.length ≤ q.length)
    (hsplit : z :: p = a ++ k :: c) (hb : Z b) : b ∉ c := by
  intro hbc
  obtain ⟨c₁, c₂, rfl⟩ := List.append_of_mem hbc
  have hlength := congrArg List.length hsplit
  -- the path to `b` is a part of the shortest one, and a shorter one itself
  have hpath : graph.TreePath start (b :: c₂) := by
    refine TreePath.suffix (p := a ++ k :: c₁) ?_
    rw [hsplit] at h
    simpa using h
  have hle := hmin b c₂ hb hpath
  simp only [List.length_append, List.length_cons] at hlength
  omega

/-- Of blocks that reach each other, the one that a search enters first is on the paths to all. -/
theorem exists_common_ancestor {Z : BlockId → Prop} (hmem : ∃ z, Z z)
    (hreached : ∀ z, Z z → ∃ p, graph.TreePath start (z :: p))
    (hroutes : ∀ x y, Z x → Z y → ∃ r, graph.Route x r y ∧ ∀ b ∈ r, Z b) :
    ∃ z, Z z ∧ ∀ x p, Z x → graph.TreePath start (x :: p) → z ∈ x :: p := by
  obtain ⟨z, p, hz, hp, hmin⟩ := exists_shortest hmem hreached
  refine ⟨z, hz, fun x q hx hq => ?_⟩
  rcases hp.fork hq with hsuffix | ⟨d, hd⟩ | ⟨a, a', k, k', d, c, hne, hsplit, hsplit'⟩
  · exact hsuffix.subset List.mem_cons_self
  · have hlength : d.length = 0 := by
      have hle := hmin x q hx hq
      have hsum := congrArg List.length hd
      simp only [List.length_append, List.length_cons] at hsum
      omega
    rw [List.length_eq_zero_iff.mp hlength, List.nil_append] at hd
    exact hd ▸ List.mem_cons_self
  · -- neither edge can be taken first, as no block of `Z` is below the fork
    have hx' := head?_of_cons_eq_append hsplit
    have hy' := head?_of_cons_eq_append hsplit'
    have hbelow : ∀ b, Z b → b ∉ d :: c := fun b hb => hp.not_mem_of_shortest hmin hsplit hb
    rw [hsplit] at hp
    rw [hsplit'] at hq
    obtain ⟨r, hr, hrZ⟩ := hroutes z x hz hx
    obtain ⟨r', hr', hrZ'⟩ := hroutes x z hx hz
    have hoff : ∀ b ∈ a ++ [k], b ∉ d :: c := fun b hb => hp.not_below hb
    have hoff' : ∀ b ∈ a' ++ [k'], b ∉ d :: c := fun b hb => hq.not_below hb
    rcases mem_takeWhile_ne hp.suffix.edge hq.suffix.edge hne with hbefore | hbefore
    · exact absurd hbefore
        (hp.not_before hq hx' hy' hoff hr fun b hb => hbelow b (hrZ b hb))
    · exact absurd hbefore
        (hq.not_before hp hy' hx' hoff' hr' fun b hb => hbelow b (hrZ' b hb))

end RamOverlay.Graph
