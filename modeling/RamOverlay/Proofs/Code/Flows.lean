import RamOverlay.Proofs.Code.Corrected

/-!
# Edges as flow between entries

The edges of a linked graph are where control goes inside a routine, from entry to entry. Calls come
back to the next entry.

* **`SourceUnit.Flows`**: one step of control inside a routine.
* **`eq_tail_of_isBranch`, `flows_of_lt_tail`**: in a block control goes from entry to entry up to
  the tail.
* **`edge_of_flows`, `flows_of_edge`**: from block to block it goes along the edges.
* **`joined_iff_connected`**: so blocks are joined if flow connects their entries, in whatever
  direction.
-/

namespace RamOverlay

open Discovery

namespace SourceUnit

/-- Control goes from the entry at `a` to the entry at `b` and stays in the routine. -/
inductive Flows (unit : SourceUnit) (routines : RoutineLabels) : Nat → Nat → Prop where
  | next {a : Nat} {insn : Instruction} (hinsn : unit.instructions[a]? = some insn)
      (hbranch : insn.isBranch = false) (hlt : a + 1 < unit.instructions.length) :
      Flows unit routines a (a + 1)
  | jump {a target : Nat} {insn : Instruction} {label : String}
      (hinsn : unit.instructions[a]? = some insn) (hbranch : insn.isBranch = true)
      (hlabel : insn.destination.label? = some label) (hlocal : label ∉ routines)
      (haddress : unit.addressOf? label = some target) : Flows unit routines a target
  | fall {a : Nat} {insn : Instruction} (hinsn : unit.instructions[a]? = some insn)
      (hbranch : insn.isBranch = true) (hfalls : insn.isUnconditional = false)
      (hlt : unit.afterBranch a insn < unit.instructions.length) :
      Flows unit routines a (unit.afterBranch a insn)

/-- Flow between entries that can be run leads from one to the other, some of it maybe against its
direction. -/
def Connected (unit : SourceUnit) (routines : RoutineLabels) : Nat → Nat → Prop :=
  Relation.EqvGen fun a b => unit.Reached routines a ∧ unit.Flows routines a b

/-- The entry at `a` is in the block `id`. -/
def LiesIn (unit : SourceUnit) (routines : RoutineLabels) (a : Nat) (id : BlockId) : Prop :=
  ∃ cut, (cutBlocks unit routines)[id]? = some cut ∧ a ∈ cut.addresses

variable {unit : SourceUnit} {routines : RoutineLabels} {a b : Nat} {id id' : BlockId}

/-- Control stays in the code that can be run. -/
theorem Reached.flows (h : unit.Reached routines a) (hflows : unit.Flows routines a b) :
    unit.Reached routines b := by
  cases hflows with
  | next hinsn hbranch hlt => exact .next h hinsn hbranch hlt
  | jump hinsn hbranch hlabel hlocal haddress => exact .jump h hinsn hbranch hlabel hlocal haddress
  | fall hinsn hbranch hfalls hlt => exact .fall h hinsn hbranch hfalls hlt

theorem Reached.exists_liesIn (h : unit.Reached routines a) (hfresh : unit.Fresh) :
    ∃ id, unit.LiesIn routines a id := by
  obtain ⟨id, cut, hcut, hmem⟩ := (exists_mem_addresses hfresh).2 (.inl h)
  exact ⟨id, cut, hcut, hmem⟩

/-- An entry lies in one block only. -/
theorem LiesIn.unique (hfresh : unit.Fresh) (h : unit.LiesIn routines a id)
    (h' : unit.LiesIn routines a id') : id = id' := by
  obtain ⟨cut, hcut, hmem⟩ := h
  obtain ⟨cut', hcut', hmem'⟩ := h'
  exact eq_of_mem_addresses hfresh hcut hcut' hmem hmem'

end SourceUnit

/-- What `r` connects has its places connected by `s`, if each `r` has. Elements without a place are
connected with themselves only. -/
theorem eqvGen_lift {α β : Type} {r : α → α → Prop} (s : β → β → Prop) (place : α → β → Prop)
    (hunique : ∀ a b b', place a b → place a b' → b = b')
    (hrel : ∀ a a', r a a' → ∃ b b', place a b ∧ place a' b' ∧ Relation.EqvGen s b b')
    {a a' : α} (h : Relation.EqvGen r a a') :
    a = a' ∨ ∃ b b', place a b ∧ place a' b' ∧ Relation.EqvGen s b b' := by
  induction h with
  | refl a => exact .inl rfl
  | rel a a' haa' => exact .inr (hrel a a' haa')
  | symm a a' _ ih =>
    -- an element without a place is only connected with itself
    rcases ih with rfl | ⟨b, b', hb, hb', hconnected⟩
    · exact .inl rfl
    · exact .inr ⟨b', b, hb', hb, .symm _ _ hconnected⟩
  | trans a a' a'' _ _ ih ih' =>
    -- the two connections meet at the place of the middle element
    rcases ih with rfl | ⟨b, b', hb, hb', hconnected⟩
    · exact ih'
    · rcases ih' with rfl | ⟨c, c', hc, hc', hconnected'⟩
      · exact .inr ⟨b, b', hb, hb', hconnected⟩
      · obtain rfl := hunique a' b' c hb' hc
        exact .inr ⟨b, c', hb, hc', .trans _ _ _ hconnected hconnected'⟩

theorem Block.tail_mem_addresses (block : Block) : block.tail.address ∈ block.addresses :=
  List.mem_map_of_mem block.tail_mem

section Flow

variable {unit : SourceUnit} {routines : RoutineLabels} {a b : Nat} {id id' : BlockId}
  {cut cut' : Block} {insn : Instruction}
variable (hfresh : unit.Fresh) (hplain : unit.PlainSlots)
include hfresh hplain

/-! ## Flow inside a block -/

/-- Behind the tail of a block there is at most its delay slot. -/
theorem le_tail_of_reached (hcut : cut ∈ cutBlocks unit routines) (ha : unit.Reached routines a)
    (hmem : a ∈ cut.addresses) : a ≤ cut.tail.address := by
  obtain ⟨htail, hget, hstop⟩ := tail_cutBlocks hfresh hplain hcut
  have hlt := ((mem_addresses_iff hfresh hcut).1 hmem).2
  by_contra hgt
  -- what stands behind the tail in its block is a delay slot, and cannot be run on its own
  rw [hstop] at hlt
  split at hlt
  next hbranch =>
    unfold SourceUnit.afterBranch at hlt
    split at hlt
    next hslot =>
      obtain ⟨hdelay, hnext⟩ := Bool.and_eq_true_iff.mp hslot
      obtain rfl : a = cut.tail.address + 1 := by omega
      exact hplain.not_reached hfresh
        ⟨_, cut.tail, htail, hget, hbranch, hdelay, rfl, of_decide_eq_true hnext⟩ ha
    next => omega
  next => omega

theorem tail_lt_stop (hcut : cut ∈ cutBlocks unit routines) : cut.tail.address < cut.stop := by
  rw [(tail_cutBlocks hfresh hplain hcut).2.2]
  split
  · unfold SourceUnit.afterBranch
    omega
  · omega

/-- A delay slot stands at the end of its block, behind the tail. -/
theorem reached_of_le_tail (hcut : cut ∈ cutBlocks unit routines) (hfirst : cut.address ≤ a)
    (hle : a ≤ cut.tail.address) : unit.Reached routines a := by
  have hout := cutOut_cutBlocks hfresh hcut
  have hstop := tail_lt_stop hfresh hplain hcut
  have hlt : a - cut.address < cut.instructions.length := by
    unfold Block.stop at hstop
    omega
  have hwalked := (walked_discover hfresh _).1 (hout.walked _ hlt)
  have hlast := hout.last _ hlt
  rw [Nat.add_sub_cancel' hfirst] at hwalked hlast
  -- a slot is the last entry of its block, and the tail comes before it
  rcases hwalked with hreached | hslot
  · exact hreached
  · obtain ⟨_, hend⟩ := hlast hslot
    obtain rfl : a = cut.tail.address := by
      unfold Block.stop at hstop
      omega
    exact (tail_cutBlocks hfresh hplain hcut).1

/-- A block ends with its branch. -/
theorem eq_tail_of_isBranch (hcut : cut ∈ cutBlocks unit routines) (ha : unit.Reached routines a)
    (hmem : a ∈ cut.addresses) (hinsn : unit.instructions[a]? = some insn)
    (hbranch : insn.isBranch = true) : a = cut.tail.address := by
  have hout := cutOut_cutBlocks hfresh hcut
  have hstop := tail_lt_stop hfresh hplain hcut
  have hfirst := ((mem_addresses_iff hfresh hcut).1 hmem).1
  refine (Nat.eq_or_lt_of_le (le_tail_of_reached hfresh hplain hcut ha hmem)).resolve_right ?_
  intro hlt
  -- the block would go on behind a branch, so what follows is its delay slot, and the tail
  have hslot := hout.after (a - cut.address) (by unfold Block.stop at hstop; omega) <| by
    rw [Nat.add_sub_cancel' hfirst]
    exact (followed_of_reached hfresh ha hinsn).after hbranch
  have hend := hout.last (a - cut.address + 1) (by unfold Block.stop at hstop; omega) hslot
  obtain heq : cut.address + (a - cut.address + 1) = cut.tail.address := by
    unfold Block.stop at hstop
    omega
  rw [heq] at hslot
  exact hplain.not_reached hfresh hslot (tail_cutBlocks hfresh hplain hcut).1

/-- Before its tail a block is left by no entry, so flow goes from each to the next. -/
theorem flows_of_lt_tail (hcut : cut ∈ cutBlocks unit routines) (hfirst : cut.address ≤ a)
    (hlt : a < cut.tail.address) : unit.Flows routines a (a + 1) := by
  have hreached := reached_of_le_tail hfresh hplain hcut hfirst (Nat.le_of_lt hlt)
  have htail := (tail_cutBlocks hfresh hplain hcut).1.lt hfresh
  have hstop := tail_lt_stop hfresh hplain hcut
  have hinsn := List.getElem?_eq_getElem (hreached.lt hfresh)
  refine .next hinsn (Bool.eq_false_iff.mpr fun hbranch => ?_) (by omega)
  have hmem := (mem_addresses_iff hfresh hcut).2 ⟨hfirst, Nat.lt_trans hlt hstop⟩
  exact Nat.ne_of_lt hlt (eq_tail_of_isBranch hfresh hplain hcut hreached hmem hinsn hbranch)

/-- Flow connects the entries of a block. -/
theorem connected_first (hcut : cut ∈ cutBlocks unit routines) (ha : unit.Reached routines a)
    (hmem : a ∈ cut.addresses) : unit.Connected routines cut.address a := by
  have hle := le_tail_of_reached hfresh hplain hcut ha hmem
  obtain ⟨i, rfl⟩ := Nat.exists_eq_add_of_le ((mem_addresses_iff hfresh hcut).1 hmem).1
  clear ha hmem
  induction i with
  | zero => exact .refl _
  | succ i ih =>
    have hfirst : cut.address ≤ cut.address + i := Nat.le_add_right _ _
    refine .trans _ _ _ (ih (by omega)) (.rel _ _ ⟨?_, ?_⟩)
    · exact reached_of_le_tail hfresh hplain hcut hfirst (by omega)
    · exact flows_of_lt_tail hfresh hplain hcut hfirst (by omega)

/-! ## Flow between blocks -/

/-- Control that leaves a block at its end comes to the next block. -/
theorem edge_of_stop (hcut : (cutBlocks unit routines)[id]? = some cut)
    (hfalls : cut.tail.isUnconditional = false) (hlt : cut.stop < unit.instructions.length)
    (hb : unit.LiesIn routines cut.stop id') : id' ∈ (linkedGraph unit routines).successors id := by
  rcases fallthrough_cutBlocks hfresh hplain hcut with ⟨heq, _, _, next, hnext, haddress⟩ | ⟨_, hno⟩
  · obtain rfl := hb.unique hfresh ⟨next, hnext, haddress ▸ List.mem_cons_self⟩
    rw [successors_linkedGraph hcut]
    exact mem_successors_of_fallthrough (heq ▸ List.mem_singleton_self _)
  · exact absurd ⟨hfalls, hlt⟩ hno

/-- Control stays in a block or leaves it along an edge. -/
theorem edge_of_flows (ha : unit.Reached routines a) (hflows : unit.Flows routines a b)
    (hid : unit.LiesIn routines a id) (hid' : unit.LiesIn routines b id') :
    id = id' ∨ id' ∈ (linkedGraph unit routines).successors id := by
  obtain ⟨cut, hcut, hmem⟩ := hid
  have hin := List.mem_of_getElem? hcut
  obtain ⟨_, hget, hstop⟩ := tail_cutBlocks hfresh hplain hin
  cases hflows with
  | next hinsn hbranch hlt =>
    -- before the tail control stays in the block, at the tail it comes to the end
    rcases Nat.eq_or_lt_of_le (le_tail_of_reached hfresh hplain hin ha hmem) with heq | hbefore
    · obtain rfl := Option.some.inj (hinsn.symm.trans (heq ▸ hget))
      rw [if_neg (by simp [hbranch]), ← heq] at hstop
      rw [← hstop] at hlt hid'
      refine .inr (edge_of_stop hfresh hplain hcut ?_ hlt hid')
      rw [Instruction.isUnconditional, hbranch, Bool.false_and]
    · refine .inl (SourceUnit.LiesIn.unique hfresh ⟨cut, hcut, ?_⟩ hid')
      have hend := tail_lt_stop hfresh hplain hin
      have hfirst := ((mem_addresses_iff hfresh hin).1 hmem).1
      exact (mem_addresses_iff hfresh hin).2 ⟨by omega, by omega⟩
  | jump hinsn hbranch hlabel hlocal haddress =>
    obtain rfl := eq_tail_of_isBranch hfresh hplain hin ha hmem hinsn hbranch
    obtain rfl := Option.some.inj (hinsn.symm.trans hget)
    obtain ⟨target, begun, htarget, hbegun, hfirst, _⟩ :=
      blockAt?_of_jump hfresh hplain hin hbranch hlabel hlocal haddress
    obtain rfl := hid'.unique hfresh ⟨begun, hbegun, hfirst ▸ List.mem_cons_self⟩
    refine .inr ?_
    rw [successors_linkedGraph hcut]
    exact mem_successors_of_jump (natural_tail hfresh hin) hbranch hlabel hlocal haddress htarget
  | fall hinsn hbranch hfalls hlt =>
    obtain rfl := eq_tail_of_isBranch hfresh hplain hin ha hmem hinsn hbranch
    obtain rfl := Option.some.inj (hinsn.symm.trans hget)
    rw [if_pos hbranch] at hstop
    rw [← hstop] at hlt hid'
    exact .inr (edge_of_stop hfresh hplain hcut hfalls hlt hid')

/-- An edge leads from the tail of a block to the first entry of another one. -/
theorem flows_of_edge (hcut : (cutBlocks unit routines)[id]? = some cut)
    (hedge : id' ∈ (linkedGraph unit routines).successors id) :
    ∃ cut', (cutBlocks unit routines)[id']? = some cut' ∧
      unit.Flows routines cut.tail.address cut'.address := by
  obtain ⟨_, hget, hstop⟩ := tail_cutBlocks hfresh hplain (List.mem_of_getElem? hcut)
  have hnatural := natural_tail hfresh (List.mem_of_getElem? hcut)
  rw [successors_linkedGraph hcut] at hedge
  rcases mem_successors_linkedBlock hedge with
    hnext | ⟨hcall, label, target, hlabel, hlocal, haddress, htarget⟩
  · rcases fallthrough_cutBlocks hfresh hplain hcut with
      ⟨heq, hfalls, hlt, next, hnext', haddress⟩ | ⟨heq, _⟩
    · obtain rfl : id' = id + 1 := List.mem_singleton.mp (heq ▸ hnext)
      refine ⟨next, hnext', ?_⟩
      rw [haddress]
      -- behind a branch flow falls through, behind another entry it goes on
      split at hstop
      next hbranch =>
        rw [hstop] at hlt ⊢
        exact .fall hget hbranch hfalls hlt
      next hbranch =>
        rw [hstop] at hlt ⊢
        exact .next hget (Bool.eq_false_iff.mpr hbranch) hlt
    · rw [heq] at hnext
      cases hnext
  · obtain ⟨next, hnext, rfl⟩ := block_of_blockAt? htarget
    exact ⟨next, hnext, .jump hget (Instruction.isBranch_of_label? hnatural hlabel hcall) hlabel
      hlocal haddress⟩

/-! ## Connection of entries and of blocks -/

/-- Entries that flow connects are in joined blocks. -/
theorem joined_of_connected (h : unit.Connected routines a b) :
    a = b ∨ ∃ id id', unit.LiesIn routines a id ∧ unit.LiesIn routines b id' ∧
      (linkedGraph unit routines).Joined id id' := by
  refine eqvGen_lift (fun id id' => id' ∈ (linkedGraph unit routines).successors id)
    (unit.LiesIn routines) (fun _ _ _ => SourceUnit.LiesIn.unique hfresh) ?_ h
  intro a b hab
  obtain ⟨id, hid⟩ := hab.1.exists_liesIn hfresh
  obtain ⟨id', hid'⟩ := (hab.1.flows hab.2).exists_liesIn hfresh
  refine ⟨id, id', hid, hid', ?_⟩
  rcases edge_of_flows hfresh hplain hab.1 hab.2 hid hid' with rfl | hedge
  · exact .refl id
  · exact Graph.joined_of_mem_successors hedge

/-- Joined blocks have connected first entries. -/
theorem connected_of_joined (h : (linkedGraph unit routines).Joined id id') :
    id = id' ∨ ∃ a b, ((cutBlocks unit routines)[id]?.map Block.address = some a) ∧
      ((cutBlocks unit routines)[id']?.map Block.address = some b) ∧
        unit.Connected routines a b := by
  refine eqvGen_lift (fun a b => unit.Reached routines a ∧ unit.Flows routines a b)
    (fun id a => (cutBlocks unit routines)[id]?.map Block.address = some a)
    (fun _ _ _ ha hb => Option.some.inj (ha.symm.trans hb)) ?_ h
  intro id id' hedge
  have hlt := Graph.lt_size_of_mem_successors hedge
  rw [size_linkedGraph] at hlt
  have hcut := List.getElem?_eq_getElem hlt
  obtain ⟨cut', hcut', hflows⟩ := flows_of_edge hfresh hplain hcut hedge
  refine ⟨_, _, by rw [hcut, Option.map_some], by rw [hcut', Option.map_some], ?_⟩
  have hin := List.mem_of_getElem? hcut
  have htail := (tail_cutBlocks hfresh hplain hin).1
  -- from the first entry to the tail, and from there along the edge
  exact .trans _ _ _ (connected_first hfresh hplain hin htail (Block.tail_mem_addresses _))
    (.rel _ _ ⟨htail, hflows⟩)

/-- Two blocks are joined if and only if flow connects their entries. -/
theorem joined_iff_connected (ha : unit.Reached routines a) (hb : unit.Reached routines b)
    (hid : unit.LiesIn routines a id) (hid' : unit.LiesIn routines b id') :
    (linkedGraph unit routines).Joined id id' ↔ unit.Connected routines a b := by
  constructor
  · intro hjoined
    obtain ⟨cut, hcut, hmem⟩ := hid
    obtain ⟨cut', hcut', hmem'⟩ := hid'
    -- every entry is connected with the first one of its block
    have hfirst := connected_first hfresh hplain (List.mem_of_getElem? hcut) ha hmem
    have hfirst' := connected_first hfresh hplain (List.mem_of_getElem? hcut') hb hmem'
    have hblocks : unit.Connected routines cut.address cut'.address := by
      rcases connected_of_joined hfresh hplain hjoined with rfl | ⟨one, two, hone, htwo, hblocks⟩
      · obtain rfl := Option.some.inj (hcut.symm.trans hcut')
        exact .refl _
      · rw [hcut, Option.map_some] at hone
        rw [hcut', Option.map_some] at htwo
        rwa [Option.some.inj hone, Option.some.inj htwo]
    exact .trans _ _ _ (.symm _ _ hfirst) (.trans _ _ _ hblocks hfirst')
  · intro hconnected
    rcases joined_of_connected hfresh hplain hconnected with rfl | ⟨one, two, hone, htwo, hjoined⟩
    · obtain rfl := hid.unique hfresh hid'
      exact .refl id
    · obtain rfl := hid.unique hfresh hone
      obtain rfl := hid'.unique hfresh htwo
      exact hjoined

end Flow

end RamOverlay
