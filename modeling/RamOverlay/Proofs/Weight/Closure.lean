import Mathlib.Order.Bounds.Basic
import RamOverlay.Proofs.Weight.Workload

/-!
# Counts closed under calls

If no chain of calls is cut off, the counts after a visit of the roots are the least ones that are
closed: no block of a root has a smaller count than its weight, and no block of a called routine a
smaller one than its weight times the count of the caller.

* **`Grown`**: counts have grown over some routines, and agree with all calls in them.
* **`Visited`**: what a visit of one block does (`visited_block`), and of one block after the other.
* **`grown_visit`**: a visit of a routine does that for all that the routine calls. The induction
  is on the fuel, and inside it on the blocks.
* **`visit_le`**: no visit raises counts above closed ones.
* **`isLeast_visitAll`**: so the counts are the least closed ones.
-/

namespace RamOverlay.Workload

variable {load : Workload} {counts counts' counts'' bound : Counts} {routine base fuel : Nat}
  {roots : List Nat} {first last : Nat} {blocks : List BlockRef}

/-! ## Chains of calls -/

/-- Calls from routine to routine, each from a block of the routine that was called before. -/
inductive Chain (load : Workload) : Nat → List BlockRef → Nat → Prop where
  | here (routine : Nat) : Chain load routine [] routine
  | call (block : BlockRef) {callee : Nat} {blocks : List BlockRef} {last : Nat}
      (hblock : block.block ∈ load.blocks block.routine) (hcallee : callee ∈ load.callees block)
      (hrest : Chain load callee blocks last) : Chain load block.routine (block :: blocks) last

/-- A chain of calls leads from one routine to the other. -/
def Calls (load : Workload) (first last : Nat) : Prop := ∃ blocks, load.Chain first blocks last

/-- A chain of calls leads from a root to the routine. -/
def Reached (load : Workload) (roots : List Nat) (routine : Nat) : Prop :=
  ∃ root ∈ roots, load.Calls root routine

/-- Chains that meet are one chain. -/
theorem Chain.append {middle : Nat} {blocks' : List BlockRef} (h : load.Chain first blocks middle)
    (h' : load.Chain middle blocks' last) : load.Chain first (blocks ++ blocks') last := by
  induction h with
  | here => exact h'
  | call block hblock hcallee _ ih => exact .call block hblock hcallee (ih h')

/-- A cycle of calls gives chains of any length. -/
theorem Chain.exists_long {block : BlockRef} (h : load.Chain routine (block :: blocks) routine)
    (n : Nat) : ∃ blocks, load.Chain routine blocks routine ∧ n ≤ blocks.length := by
  induction n with
  | zero => exact ⟨[], .here routine, Nat.le_refl 0⟩
  | succ n ih =>
    obtain ⟨blocks', hchain, hle⟩ := ih
    refine ⟨_, h.append hchain, ?_⟩
    rw [List.length_append, List.length_cons]
    omega

/-- What a reached routine calls is reached. -/
theorem Reached.call (block : BlockRef) {callee : Nat} (h : load.Reached roots block.routine)
    (hblock : block.block ∈ load.blocks block.routine) (hcallee : callee ∈ load.callees block) :
    load.Reached roots callee := by
  obtain ⟨root, hroot, blocks, hchain⟩ := h
  exact ⟨root, hroot, _, hchain.append (.call block hblock hcallee (.here callee))⟩

/-! ## Counts that agree with calls -/

/-- The blocks of the routine have at least the counts of a routine that is run `base` times. -/
def Runs (load : Workload) (counts : Counts) (routine base : Nat) : Prop :=
  ∀ id ∈ load.blocks routine, Count.mul (load.weight ⟨routine, id⟩) base ≤ counts ⟨routine, id⟩

/-- What the block calls is run at least as often as the block. -/
def Settled (load : Workload) (counts : Counts) (block : BlockRef) : Prop :=
  ∀ callee ∈ load.callees block, load.Runs counts callee (counts block)

/-- The roots are run once, and all that is reached from them as often as the calls to it. -/
structure Closed (load : Workload) (roots : List Nat) (counts : Counts) : Prop where
  root : ∀ root ∈ roots, load.Runs counts root 1
  call : ∀ block, load.Reached roots block.routine → block.block ∈ load.blocks block.routine →
    load.Settled counts block

/-- Counts have grown within the routines `within`; those of other routines are kept. The calls that
agreed with the counts before still do, and all calls in the routines do. -/
structure Grown (load : Workload) (within : Nat → Prop) (counts counts' : Counts) : Prop where
  le : counts ≤ counts'
  kept : ∀ block, ¬ within block.routine → counts' block = counts block
  settled : ∀ block, load.Settled counts block → load.Settled counts' block
  new : ∀ block, within block.routine → block.block ∈ load.blocks block.routine →
    load.Settled counts' block

theorem Runs.mono (h : load.Runs counts routine base) (hle : counts ≤ counts') :
    load.Runs counts' routine base :=
  fun id hid => Nat.le_trans (h id hid) (hle _)

/-- Calls from a block that keeps its count stay in agreement while other counts grow. -/
theorem Settled.mono {block : BlockRef} (h : load.Settled counts block) (hle : counts ≤ counts')
    (hkept : counts' block = counts block) : load.Settled counts' block := by
  intro callee hcallee
  rw [hkept]
  exact (h callee hcallee).mono hle

theorem Grown.refl (load : Workload) (counts : Counts) :
    load.Grown (fun _ => False) counts counts :=
  ⟨fun _ => Nat.le_refl _, fun _ _ => rfl, fun _ => id, fun _ h => h.elim⟩

/-- Counts that grow twice have grown. -/
theorem Grown.trans {within within' : Nat → Prop} (h : load.Grown within counts counts')
    (h' : load.Grown within' counts' counts'') :
    load.Grown (fun routine => within routine ∨ within' routine) counts counts'' where
  le block := Nat.le_trans (h.le block) (h'.le block)
  kept block hno := (h'.kept block fun hwithin => hno (.inr hwithin)).trans
    (h.kept block fun hwithin => hno (.inl hwithin))
  settled block hsettled := h'.settled block (h.settled block hsettled)
  new block hwithin hblock :=
    hwithin.elim (fun hwithin => h'.settled block (h.new block hwithin hblock))
      fun hwithin => h'.new block hwithin hblock

theorem Grown.congr {within within' : Nat → Prop} (h : load.Grown within counts counts')
    (hiff : ∀ routine, within routine ↔ within' routine) : load.Grown within' counts counts' := by
  obtain rfl : within = within' := funext fun routine => propext (hiff routine)
  exact h

/-! ## Visits -/

/-- One routine after the other, each run `base` times. -/
theorem grown_foldl (load : Workload) (visit : Nat → Nat → Counts → Counts) (base : Nat)
    (routines : List Nat) (counts : Counts)
    (hvisit : ∀ routine ∈ routines, ∀ counts,
      load.Grown (load.Calls routine) counts (visit routine base counts) ∧
        load.Runs (visit routine base counts) routine base) :
    load.Grown (load.Reached routines) counts
        (routines.foldl (fun counts routine => visit routine base counts) counts) ∧
      ∀ routine ∈ routines, load.Runs
        (routines.foldl (fun counts routine => visit routine base counts) counts) routine base := by
  induction routines generalizing counts with
  | nil =>
    exact ⟨(Grown.refl load counts).congr fun _ => by simp [Reached],
      fun _ h => absurd h List.not_mem_nil⟩
  | cons first routines ih =>
    obtain ⟨hgrown, hruns⟩ := hvisit first List.mem_cons_self counts
    obtain ⟨hgrown', hruns'⟩ := ih (visit first base counts)
      fun routine hroutine => hvisit routine (List.mem_cons_of_mem first hroutine)
    refine ⟨(hgrown.trans hgrown').congr fun routine => by simp [Reached], ?_⟩
    intro routine hroutine
    rcases List.mem_cons.mp hroutine with rfl | hroutine
    · -- the later visits only raise the counts
      exact hruns.mono hgrown'.le
    · exact hruns' routine hroutine

/-- Counts have grown by a visit of some blocks of a routine that is run `base` times: the blocks
allow for that, and they and what they call agree with the calls. -/
structure Visited (load : Workload) (routine base : Nat) (ids : List BlockId)
    (counts counts' : Counts) : Prop where
  le : counts ≤ counts'
  kept : ∀ block, ¬ load.Calls routine block.routine → counts' block = counts block
  settled : ∀ block, load.Settled counts block → load.Settled counts' block
  runs : ∀ id ∈ ids, Count.mul (load.weight ⟨routine, id⟩) base ≤ counts' ⟨routine, id⟩
  own : ∀ id ∈ ids, load.Settled counts' ⟨routine, id⟩
  called : ∀ id ∈ ids, ∀ block, load.Reached (load.callees ⟨routine, id⟩) block.routine →
    block.block ∈ load.blocks block.routine → load.Settled counts' block

theorem Visited.nil (load : Workload) (routine base : Nat) (counts : Counts) :
    load.Visited routine base [] counts counts :=
  ⟨fun _ => Nat.le_refl _, fun _ _ => rfl, fun _ => id, fun _ h => absurd h List.not_mem_nil,
    fun _ h => absurd h List.not_mem_nil, fun _ h => absurd h List.not_mem_nil⟩

/-- Visiting one block and then others is visiting them all. -/
theorem Visited.cons {id : BlockId} {ids : List BlockId}
    (h : load.Visited routine base [id] counts counts')
    (h' : load.Visited routine base ids counts' counts'') :
    load.Visited routine base (id :: ids) counts counts'' where
  le block := Nat.le_trans (h.le block) (h'.le block)
  kept block hno := (h'.kept block hno).trans (h.kept block hno)
  settled block hsettled := h'.settled block (h.settled block hsettled)
  runs := List.forall_mem_cons.2
    ⟨Nat.le_trans (h.runs id List.mem_cons_self) (h'.le _), h'.runs⟩
  own := List.forall_mem_cons.2 ⟨h'.settled _ (h.own id List.mem_cons_self), h'.own⟩
  called := List.forall_mem_cons.2
    ⟨fun block hreached hblock =>
      h'.settled block (h.called id List.mem_cons_self block hreached hblock), h'.called⟩

/-- One block. What it calls does not lead back to its routine, so it keeps the count with which its
calls are visited. -/
theorem visited_block {visit : Nat → Nat → Counts → Counts} {id : BlockId} (base : Nat)
    (counts : Counts) (hid : id ∈ load.blocks routine)
    (hacyclic : ¬ load.Reached (load.callees ⟨routine, id⟩) routine)
    (hvisit : ∀ callee ∈ load.callees ⟨routine, id⟩, ∀ count counts,
      load.Grown (load.Calls callee) counts (visit callee count counts) ∧
        load.Runs (visit callee count counts) callee count) :
    load.Visited routine base [id] counts <| load.visitBlocks base routine visit [id] counts := by
  unfold visitBlocks visitBlocks
  dsimp only
  have hle : Count.mul (load.weight ⟨routine, id⟩) base ≤ load.raised base counts ⟨routine, id⟩ :=
    Nat.le_max_left _ _
  have hge : counts ⟨routine, id⟩ ≤ load.raised base counts ⟨routine, id⟩ := Nat.le_max_right _ _
  generalize load.raised base counts ⟨routine, id⟩ = count at hle hge
  have hset : counts ≤ Function.update counts ⟨routine, id⟩ count := le_update_self_iff.2 hge
  have hothers : ∀ block, block ≠ ⟨routine, id⟩ →
      Function.update counts ⟨routine, id⟩ count block = counts block :=
    fun block hne => Function.update_of_ne hne _ _
  obtain ⟨hgrown, hruns⟩ := grown_foldl load visit count (load.callees ⟨routine, id⟩)
    (Function.update counts ⟨routine, id⟩ count) fun callee hcallee => hvisit callee hcallee count
  generalize List.foldl _ _ (load.callees ⟨routine, id⟩) = after at hgrown hruns
  have hcount : after ⟨routine, id⟩ = count := by
    rw [hgrown.kept _ hacyclic, Function.update_self]
  have hself : load.Settled after ⟨routine, id⟩ := by
    intro callee hcallee
    rw [hcount]
    exact hruns callee hcallee
  refine ⟨fun block => Nat.le_trans (hset block) (hgrown.le block), fun block hno => ?_,
    fun block hsettled => ?_, ?_, ?_, ?_⟩
  · -- neither the block nor a routine that it calls
    have hno' : ¬ load.Reached (load.callees ⟨routine, id⟩) block.routine := by
      rintro ⟨callee, hcallee, blocks, hchain⟩
      exact hno ⟨_, .call ⟨routine, id⟩ hid hcallee hchain⟩
    rw [hgrown.kept block hno', hothers]
    rintro rfl
    exact hno ⟨[], .here routine⟩
  · by_cases heq : block = ⟨routine, id⟩
    · exact heq ▸ hself
    · exact hgrown.settled block (hsettled.mono hset (hothers block heq))
  · exact List.forall_mem_singleton.2 (hcount ▸ hle)
  · exact List.forall_mem_singleton.2 hself
  · exact List.forall_mem_singleton.2 hgrown.new

/-- One block after the other. -/
theorem visited_visitBlocks {visit : Nat → Nat → Counts → Counts} {ids : List BlockId}
    (base : Nat) (counts : Counts) (hids : ∀ id ∈ ids, id ∈ load.blocks routine)
    (hacyclic : ∀ id ∈ ids, ¬ load.Reached (load.callees ⟨routine, id⟩) routine)
    (hvisit : ∀ id ∈ ids, ∀ callee ∈ load.callees ⟨routine, id⟩, ∀ count counts,
      load.Grown (load.Calls callee) counts (visit callee count counts) ∧
        load.Runs (visit callee count counts) callee count) :
    load.Visited routine base ids counts (load.visitBlocks base routine visit ids counts) := by
  induction ids generalizing counts with
  | nil => exact .nil load routine base counts
  | cons id ids ih =>
    -- Visiting one block satisfies the invariant, and two visits compose.
    have hfirst := visited_block base counts (hids id List.mem_cons_self)
      (hacyclic id List.mem_cons_self) (hvisit id List.mem_cons_self)
    refine hfirst.cons (ih _ (fun other hother => hids other (List.mem_cons_of_mem id hother))
      (fun other hother => hacyclic other (List.mem_cons_of_mem id hother))
      fun other hother => hvisit other (List.mem_cons_of_mem id hother))

/-- A visit that cuts off no chain of calls. -/
theorem grown_visit (hshort : ∀ blocks last, load.Chain routine blocks last →
    blocks.length < fuel) (base : Nat) (counts : Counts) :
    load.Grown (load.Calls routine) counts (load.visit fuel routine base counts) ∧
      load.Runs (load.visit fuel routine base counts) routine base := by
  induction fuel generalizing routine base counts with
  | zero => exact absurd (hshort [] routine (.here routine)) (Nat.not_lt_zero _)
  | succ fuel ih =>
    unfold visit
    -- a cycle of calls would have chains longer than the fuel
    have hacyclic : ∀ id ∈ load.blocks routine,
        ¬ load.Reached (load.callees ⟨routine, id⟩) routine := by
      rintro id hid ⟨callee, hcallee, blocks, hchain⟩
      obtain ⟨blocks', hlong, hle⟩ := Chain.exists_long
        (.call ⟨routine, id⟩ hid hcallee hchain) (fuel + 1)
      exact absurd (hshort blocks' routine hlong) (Nat.not_lt_of_le hle)
    have hvisited := visited_visitBlocks base counts (fun _ => id) hacyclic
      fun id hid callee hcallee => ih fun blocks last hchain => Nat.lt_of_succ_lt_succ
        (hshort _ last (.call ⟨routine, id⟩ hid hcallee hchain))
    refine ⟨⟨hvisited.le, hvisited.kept, hvisited.settled, ?_⟩, hvisited.runs⟩
    rintro block ⟨blocks, hchain⟩ hblock
    cases hchain with
    | here => exact hvisited.own block.block hblock
    | @call caller callee rest _ hcaller hcallee hrest =>
      exact hvisited.called caller.block hcaller block ⟨callee, hcallee, rest, hrest⟩ hblock

/-! ## Closed counts -/

/-- If no chain of calls from a root is cut off, the counts are closed. -/
theorem closed_visitAll {depth : Nat} (hshort : ∀ root ∈ roots, ∀ blocks last,
    load.Chain root blocks last → blocks.length ≤ depth) (counts : Counts) :
    load.Closed roots (load.visitAll depth roots counts) ∧
      counts ≤ load.visitAll depth roots counts := by
  obtain ⟨hgrown, hruns⟩ := grown_foldl load (load.visit (depth + 1)) 1 roots counts
    fun root hroot => grown_visit
      (fun blocks last hchain => Nat.lt_succ_of_le (hshort root hroot blocks last hchain)) 1
  exact ⟨⟨hruns, hgrown.new⟩, hgrown.le⟩

/-- One after the other, no visit raises counts above the bound. -/
theorem foldl_le (visit : Nat → Nat → Counts → Counts) {routines : List Nat}
    (hvisit : ∀ routine ∈ routines, ∀ counts ≤ bound, visit routine base counts ≤ bound)
    (h : counts ≤ bound) :
    routines.foldl (fun counts routine => visit routine base counts) counts ≤ bound := by
  induction routines generalizing counts with
  | nil => exact h
  | cons first routines ih =>
    exact ih (fun routine hroutine => hvisit routine (List.mem_cons_of_mem first hroutine))
      (hvisit first List.mem_cons_self counts h)

/-- One block after the other, with no count raised above the bound. -/
theorem visitBlocks_le {visit : Nat → Nat → Counts → Counts} {ids : List BlockId}
    (hids : ∀ id ∈ ids, id ∈ load.blocks routine) (hruns : load.Runs bound routine base)
    (hvisit : ∀ id ∈ ids, ∀ callee ∈ load.callees ⟨routine, id⟩, ∀ count ≤ bound ⟨routine, id⟩,
      ∀ counts ≤ bound, visit callee count counts ≤ bound)
    (h : counts ≤ bound) : load.visitBlocks base routine visit ids counts ≤ bound := by
  induction ids generalizing counts with
  | nil => exact h
  | cons id ids ih =>
    unfold visitBlocks
    dsimp only
    -- The raised count is under the bound: both what it was and what is asked for are.
    have hcount : load.raised base counts ⟨routine, id⟩ ≤ bound ⟨routine, id⟩ :=
      Nat.max_le.mpr ⟨hruns id (hids id List.mem_cons_self), h _⟩
    have hset : Function.update counts ⟨routine, id⟩ (load.raised base counts ⟨routine, id⟩) ≤
        bound :=
      update_le_iff.2 ⟨hcount, fun block _ => h block⟩
    refine ih (fun other hother => hids other (List.mem_cons_of_mem id hother))
      (fun other hother => hvisit other (List.mem_cons_of_mem id hother)) (foldl_le visit ?_ hset)
    exact fun callee hcallee => hvisit id List.mem_cons_self callee hcallee _ hcount

/-- A visit raises no count above closed counts. -/
theorem visit_le (hclosed : load.Closed roots bound) (hreached : load.Reached roots routine)
    (hruns : load.Runs bound routine base) (h : counts ≤ bound) :
    load.visit fuel routine base counts ≤ bound := by
  induction fuel generalizing routine base counts with
  | zero => exact h
  | succ fuel ih =>
    unfold visit
    refine visitBlocks_le (fun _ => id) hruns (fun id hid callee hcallee count hcount _ h => ?_) h
    refine ih (hreached.call ⟨routine, id⟩ hid hcallee) (fun other hother => ?_) h
    exact Nat.le_trans (Count.mul_mono (Nat.le_refl _) hcount)
      (hclosed.call ⟨routine, id⟩ hreached hid callee hcallee other hother)

/-- If no chain of calls from a root is cut off, the counts after a visit of the roots are the least
closed ones that are not below the counts before. -/
theorem isLeast_visitAll {depth : Nat} (hshort : ∀ root ∈ roots, ∀ blocks last,
    load.Chain root blocks last → blocks.length ≤ depth) (counts : Counts) :
    IsLeast {bound | load.Closed roots bound ∧ counts ≤ bound}
      (load.visitAll depth roots counts) := by
  refine ⟨closed_visitAll hshort counts, fun bound hbound => ?_⟩
  obtain ⟨hclosed, h⟩ := hbound
  exact foldl_le (load.visit (depth + 1)) (fun root hroot _ =>
    visit_le hclosed ⟨root, hroot, [], .here root⟩ (hclosed.root root hroot)) h

end RamOverlay.Workload
