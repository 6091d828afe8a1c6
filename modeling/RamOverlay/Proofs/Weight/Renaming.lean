import RamOverlay.Proofs.Weight.Closure

/-!
# Routines under other numbers

A visit reads the number of a routine only to find its blocks and its calls. So routines may have
other numbers, as long as no two have the same; and if no chain of calls is cut off, the roots may
be visited in any order.

* **`Renamed`**: two workloads with the same routines under different numbers.
* **`agree_visit`**: a visit keeps counts that agree in agreement. The induction is on the fuel, and
  inside it on the blocks.
* **`visitAll_eq_of_mem_iff`**: least closed counts do not depend on the order of the roots.
* **`agree_visitAll_of_mem_iff`**: the two together.
-/

namespace RamOverlay.Workload

variable {load load' : Workload} {counts counts' bound : Counts} {count routine base fuel : Nat}
  {rename : Nat → Nat} {roots roots' : List Nat}

/-- The routines below `count` have the numbers `rename` in the second workload. -/
structure Renamed (load load' : Workload) (count : Nat) (rename : Nat → Nat) : Prop where
  injective : ∀ r < count, ∀ s < count, rename r = rename s → r = s
  blocks : ∀ r < count, load'.blocks (rename r) = load.blocks r
  weight : ∀ r < count, ∀ id, load'.weight ⟨rename r, id⟩ = load.weight ⟨r, id⟩
  callees : ∀ r < count, ∀ id, load'.callees ⟨rename r, id⟩ = (load.callees ⟨r, id⟩).map rename
  closed : ∀ r < count, ∀ id, ∀ callee ∈ load.callees ⟨r, id⟩, callee < count

/-- The second counts are the first ones under other numbers. -/
def Agree (count : Nat) (rename : Nat → Nat) (counts counts' : Counts) : Prop :=
  ∀ r < count, ∀ id, counts' ⟨rename r, id⟩ = counts ⟨r, id⟩

/-- The second visit does under other numbers what the first one does. -/
def VisitsAgree (count : Nat) (rename : Nat → Nat) (visit visit' : Nat → Nat → Counts → Counts) :
    Prop :=
  ∀ r < count, ∀ base counts counts', Agree count rename counts counts' →
    Agree count rename (visit r base counts) (visit' (rename r) base counts')

/-! ## Visits -/

/-- Counts that agree do so after the same count was set in both. -/
theorem Renamed.agree_update (h : load.Renamed load' count rename) (hroutine : routine < count)
    (hagree : Agree count rename counts counts') (id : BlockId) (n : Nat) :
    Agree count rename (Function.update counts ⟨routine, id⟩ n)
      (Function.update counts' ⟨rename routine, id⟩ n) := by
  intro r hr other
  by_cases heq : (⟨r, other⟩ : BlockRef) = ⟨routine, id⟩
  · cases heq
    rw [Function.update_self, Function.update_self]
  · have hne : (⟨rename r, other⟩ : BlockRef) ≠ ⟨rename routine, id⟩ := fun heq' => by
      obtain ⟨hrename, rfl⟩ := BlockRef.mk.inj heq'
      exact heq (by rw [h.injective r hr routine hroutine hrename])
    rw [Function.update_of_ne heq, Function.update_of_ne hne]
    exact hagree r hr other

theorem agree_foldl {visit visit' : Nat → Nat → Counts → Counts} {routines : List Nat}
    (hvisit : VisitsAgree count rename visit visit') (hroutines : ∀ r ∈ routines, r < count)
    (hagree : Agree count rename counts counts') :
    Agree count rename (routines.foldl (fun counts r => visit r base counts) counts)
      ((routines.map rename).foldl (fun counts r => visit' r base counts) counts') := by
  induction routines generalizing counts counts' with
  | nil => exact hagree
  | cons r routines ih =>
    exact ih (fun s hs => hroutines s (List.mem_cons_of_mem r hs))
      (hvisit r (hroutines r List.mem_cons_self) base counts counts' hagree)

namespace Renamed

variable (h : load.Renamed load' count rename)
include h

theorem agree_visitBlocks {visit visit' : Nat → Nat → Counts → Counts}
    (hvisit : VisitsAgree count rename visit visit') (hroutine : routine < count)
    (ids : List BlockId) (hagree : Agree count rename counts counts') :
    Agree count rename (load.visitBlocks base routine visit ids counts)
      (load'.visitBlocks base (rename routine) visit' ids counts') := by
  induction ids generalizing counts counts' with
  | nil => exact hagree
  | cons id ids ih =>
    unfold visitBlocks raised
    dsimp only
    rw [h.weight routine hroutine, hagree routine hroutine, h.callees routine hroutine]
    exact ih (agree_foldl hvisit (h.closed routine hroutine id)
      (h.agree_update hroutine hagree id _))

/-- With each step of fuel, both visits do the same. -/
theorem agree_visit (fuel : Nat) :
    VisitsAgree count rename (load.visit fuel) (load'.visit fuel) := by
  induction fuel with
  | zero => exact fun _ _ _ _ _ hagree => hagree
  | succ fuel ih =>
    intro r hr base counts counts' hagree
    unfold visit
    rw [h.blocks r hr]
    exact h.agree_visitBlocks ih hr _ hagree

theorem agree_visitAll (hroots : ∀ root ∈ roots, root < count)
    (hagree : Agree count rename counts counts') (depth : Nat) :
    Agree count rename (load.visitAll depth roots counts)
      (load'.visitAll depth (roots.map rename) counts') :=
  agree_foldl (h.agree_visit (depth + 1)) hroots hagree

/-- A chain of calls of renamed routines is one of the routines. -/
theorem exists_chain {blocks' : List BlockRef} {first' last' : Nat}
    (hchain : load'.Chain first' blocks' last') (hroutine : routine < count)
    (hfirst : first' = rename routine) :
    ∃ blocks last, load.Chain routine blocks last ∧ blocks.length = blocks'.length := by
  induction hchain generalizing routine with
  | here => exact ⟨[], routine, .here routine, rfl⟩
  | call block hblock hcallee _ ih =>
    obtain ⟨first, id⟩ := block
    obtain rfl : first = rename routine := hfirst
    rw [h.blocks routine hroutine] at hblock
    rw [h.callees routine hroutine] at hcallee
    -- The callee is a renamed one, and its chain is found by induction.
    obtain ⟨callee, hmem, rfl⟩ := List.mem_map.mp hcallee
    obtain ⟨blocks, last, hrest, hlength⟩ := ih (h.closed routine hroutine id callee hmem) rfl
    exact ⟨_, last, .call ⟨routine, id⟩ hblock hmem hrest,
      congrArg (· + 1) hlength⟩

end Renamed

/-! ## The order of the roots -/

theorem Reached.of_mem (h : load.Reached roots routine) (hroots : ∀ root ∈ roots, root ∈ roots') :
    load.Reached roots' routine := by
  obtain ⟨root, hroot, hcalls⟩ := h
  exact ⟨root, hroots root hroot, hcalls⟩

theorem Closed.of_mem (h : load.Closed roots bound) (hroots : ∀ root ∈ roots', root ∈ roots) :
    load.Closed roots' bound :=
  ⟨fun root hroot => h.root root (hroots root hroot),
    fun block hreached => h.call block (hreached.of_mem hroots)⟩

/-- If no chain of calls is cut off, the order of the roots does not matter. -/
theorem visitAll_eq_of_mem_iff {depth : Nat} (hshort : ∀ root ∈ roots, ∀ blocks last,
      load.Chain root blocks last → blocks.length ≤ depth)
    (hroots : ∀ root, root ∈ roots' ↔ root ∈ roots) :
    load.visitAll depth roots' counts = load.visitAll depth roots counts := by
  have hleast := isLeast_visitAll hshort counts
  have hshort' : ∀ root ∈ roots', ∀ blocks last, load.Chain root blocks last →
      blocks.length ≤ depth := fun root hroot => hshort root ((hroots root).1 hroot)
  have hleast' := isLeast_visitAll hshort' counts
  refine (hleast'.unique ⟨⟨?_, hleast.1.2⟩, fun bound hbound => hleast.2 ⟨?_, hbound.2⟩⟩)
  · exact hleast.1.1.of_mem fun root hroot => (hroots root).1 hroot
  · exact hbound.1.of_mem fun root hroot => (hroots root).2 hroot

/-- If no chain of calls is cut off, routines may have other numbers and the roots another order. -/
theorem Renamed.agree_visitAll_of_mem_iff {depth : Nat} (h : load.Renamed load' count rename)
    (hcount : ∀ root ∈ roots, root < count) (hshort : ∀ root ∈ roots, ∀ blocks last,
      load.Chain root blocks last → blocks.length ≤ depth)
    (hroots : ∀ root, root ∈ roots' ↔ root ∈ roots.map rename)
    (hagree : Agree count rename counts counts') :
    Agree count rename (load.visitAll depth roots counts)
      (load'.visitAll depth roots' counts') := by
  -- The renamed chains are as long as the chains, so they are not cut off either.
  have hshort' : ∀ root ∈ roots.map rename, ∀ blocks' last', load'.Chain root blocks' last' →
      blocks'.length ≤ depth := by
    intro _ hroot blocks' last' hchain
    obtain ⟨root, hmem, rfl⟩ := List.mem_map.mp hroot
    obtain ⟨blocks, last, hchain, hlength⟩ := h.exists_chain hchain (hcount root hmem) rfl
    exact hlength ▸ hshort root hmem blocks last hchain
  rw [visitAll_eq_of_mem_iff hshort' hroots]
  exact h.agree_visitAll hcount hagree depth

end RamOverlay.Workload
