import RamOverlay.Proofs.Code.Tails

/-!
# Where walks start

A walk starts where something asks for it: at the routine labels, at what a call or a branch leads
to, and behind them. Nothing else does, so that the blocks of a unit depend only on these places and
on the code that can be run.

* **`SourceUnit.Begins`**: the places from which a walk starts.
* **`followCall_begins`, `followBranch_begins`, `walkFrom_begins`, `drain_begins`**: no others are
  ever asked for.
* **`taken_discover_iff`, `cutBefore_discover_iff`, `cutAfter_discover_iff`**: the marks at the end.
* **`cutBlocks_congr`**: routine labels for which walks go over the same code, and start from the
  same places, give the same blocks.
-/

namespace RamOverlay

open Discovery

namespace SourceUnit

/-- A walk starts from the place. -/
inductive Begins (unit : SourceUnit) (routines : RoutineLabels) : Nat → Prop where
  | entrance {label : String} {a : Nat} (hlabel : label ∈ routines)
      (haddress : unit.addressOf? label = some a) : Begins unit routines a
  | call {a target : Nat} {insn : Instruction} {label : String} (h : unit.Reached routines a)
      (hinsn : unit.instructions[a]? = some insn) (hcall : insn.isCall = true)
      (hlabel : insn.destination.label? = some label)
      (haddress : unit.addressOf? label = some target) : Begins unit routines target
  | behind {a target : Nat} {insn : Instruction} {label : String} (h : unit.Reached routines a)
      (hinsn : unit.instructions[a]? = some insn) (hcall : insn.isCall = true)
      (hlabel : insn.destination.label? = some label)
      (haddress : unit.addressOf? label = some target) : Begins unit routines (a + 1)
  | jump {a target : Nat} {insn : Instruction} {label : String} (h : unit.Reached routines a)
      (hinsn : unit.instructions[a]? = some insn) (hbranch : insn.isBranch = true)
      (hlabel : insn.destination.label? = some label) (hlocal : label ∉ routines)
      (haddress : unit.addressOf? label = some target) : Begins unit routines target
  | fall {a : Nat} {insn : Instruction} (h : unit.Reached routines a)
      (hinsn : unit.instructions[a]? = some insn) (hbranch : insn.isBranch = true)
      (hfalls : insn.isUnconditional = false) : Begins unit routines (unit.afterBranch a insn)

/-- Walks start from code that can be run, but for one behind the last entry. -/
theorem Begins.reached {unit : SourceUnit} {routines : RoutineLabels} {a : Nat}
    (h : unit.Begins routines a) (hfresh : unit.Fresh) (hlt : a < unit.instructions.length) :
    unit.Reached routines a := by
  cases h with
  | entrance hlabel haddress => exact .entrance hlabel haddress
  | call h hinsn hcall hlabel haddress => exact .call h hinsn hcall hlabel haddress
  | behind h hinsn hcall =>
    exact .next h hinsn (Instruction.isBranch_of_isCall hcall (hfresh.natural _ _ hinsn)) hlt
  | jump h hinsn hbranch hlabel hlocal haddress =>
    exact .jump h hinsn hbranch hlabel hlocal haddress
  | fall h hinsn hbranch hfalls => exact .fall h hinsn hbranch hfalls hlt

end SourceUnit

namespace Discovery

variable {unit : SourceUnit} {routines : RoutineLabels} {walk : Walk} {a : Nat} {insn : Instruction}

/-! ## What is asked for -/

/-- Walks are asked for from the right places only. -/
def Walk.AsksBegins (unit : SourceUnit) (routines : RoutineLabels) (walk : Walk) : Prop :=
  ∀ a, walk.Asked a → unit.Begins routines a

/-- One more place may be asked for if walks start from it. -/
theorem Walk.AsksBegins.enqueue (h : walk.AsksBegins unit routines)
    (hbegins : unit.Begins routines a) : (walk.enqueue a).AsksBegins unit routines := by
  intro b hb
  rcases asked_enqueue.1 hb with hb | rfl
  · exact h b hb
  · exact hbegins

/-- A call asks for its target and for the entry behind it. -/
theorem followCall_begins (h : walk.AsksBegins unit routines) (hreached : unit.Reached routines a)
    (hinsn : unit.instructions[a]? = some insn) :
    (followCall unit a insn walk).value.AsksBegins unit routines := by
  unfold followCall
  split
  next hcall =>
    split
    next => exact h
    next label hlabel =>
      split
      -- only a call whose label is here asks for anything
      next target haddress =>
        exact (h.enqueue (.call hreached hinsn hcall hlabel haddress)).enqueue
          (.behind hreached hinsn hcall hlabel haddress)
      next => exact h
  next => exact h

/-- A branch asks for its target and for what stands behind it and its slot. -/
theorem followBranch_begins (h : walk.AsksBegins unit routines)
    (hreached : unit.Reached routines a) (hinsn : unit.instructions[a]? = some insn)
    (hbranch : insn.isBranch = true) :
    (followBranch unit routines a insn walk).AsksBegins unit routines := by
  have htarget : (askTarget unit routines insn walk).AsksBegins unit routines := by
    unfold askTarget
    cases htarget : localTarget? unit routines insn with
    | none => exact h
    | some target =>
      obtain ⟨label, hlabel, hlocal, haddress⟩ := localTarget?_eq_some.1 htarget
      have hcut : ({ walk with cutBefore := walk.cutBefore.insert target } : Walk).AsksBegins
          unit routines := h
      exact hcut.enqueue (.jump hreached hinsn hbranch hlabel hlocal haddress)
  -- marks do not matter here: only what is asked for has to begin a block
  have hslot : (visitSlot unit a insn { askTarget unit routines insn walk with
      cutAfter := (askTarget unit routines insn walk).cutAfter.insert a }).AsksBegins
        unit routines := by
    unfold visitSlot
    split
    · exact htarget
    · exact htarget
  rw [followBranch_eq]
  dsimp only
  split
  next => exact hslot
  next hfalls => exact hslot.enqueue (.fall hreached hinsn hbranch (Bool.eq_false_iff.mpr hfalls))

/-- A walk along the entries asks for no other places, wherever it ends. -/
theorem walkFrom_begins {start : Nat} {entries : List Instruction}
    (hentries : unit.instructions.drop a = entries) (h : walk.AsksBegins unit routines)
    (hreached : a < unit.instructions.length → unit.Reached routines a) :
    (walkFrom unit routines start a entries walk).value.AsksBegins unit routines := by
  -- the walk goes on only behind an entry that is no branch, so that the next one can be run too
  induction entries generalizing a walk with
  | nil => exact h
  | cons insn rest ih =>
    obtain ⟨hinsn, hrest⟩ := getElem?_of_drop_eq_cons hentries
    have hreached := hreached (List.getElem?_eq_some_iff.mp hinsn).1
    have hvisit : (walk.visit a).AsksBegins unit routines := h
    have hcall := followCall_begins hvisit hreached hinsn
    rw [walkFrom]
    split
    next => exact h
    next =>
      rw [Traced.value_bind]
      split
      next hbranch => exact followBranch_begins hcall hreached hinsn hbranch
      next hbranch =>
        exact ih hrest hcall fun hlt => .next hreached hinsn (Bool.eq_false_iff.mpr hbranch) hlt

/-- Neither do the walks that are pending. -/
theorem drain_begins (hfresh : unit.Fresh) {fuel : Nat} (h : walk.AsksBegins unit routines) :
    (drain unit routines fuel walk).value.AsksBegins unit routines := by
  induction fuel generalizing walk with
  | zero => exact h
  | succ fuel ih =>
    cases hpending : walk.pending with
    | nil =>
      unfold drain
      rw [hpending]
      exact h
    | cons start pending =>
      -- `start` is taken now and no longer pending: what is asked for stays the same
      have hstart : unit.Begins routines start := h start (.inr (hpending ▸ List.mem_cons_self))
      have hbegun : ({ walk with pending, taken := walk.taken.insert start } : Walk).AsksBegins
          unit routines := by
        rintro b (hb | hb)
        · by_cases heq : b = start
          · exact heq ▸ hstart
          · exact h b (.inl (by simpa [heq] using hb))
        · exact h b (.inr (hpending ▸ List.mem_cons_of_mem start hb))
      unfold drain
      rw [hpending]
      dsimp only
      split
      next hlt => exact ih (walkFrom_begins rfl hbegun fun hlt => hstart.reached hfresh hlt)
      next => exact ih hbegun

/-! ## The marks -/

section Discover

variable (hfresh : unit.Fresh)
include hfresh

/-- Discovery asks only for places from which walks start. -/
theorem asksBegins_discover (routines : RoutineLabels) :
    (discover unit routines).value.AsksBegins unit routines := by
  refine drain_begins hfresh fun b hb => ?_
  rcases hb with hb | hb
  · simp [Walk.start] at hb
  · obtain ⟨label, hlabel, haddress⟩ := mem_entrances.1 hb
    exact .entrance hlabel haddress

/-- Walks have started from all places from which they should, and from no others. -/
theorem taken_discover_iff :
    (discover unit routines).value.taken.contains a = true ↔ unit.Begins routines a := by
  obtain ⟨_, hasked, hentrances⟩ := discover_marked hfresh routines
  constructor
  · exact fun htaken => asksBegins_discover hfresh routines a (.inl htaken)
  · intro h
    -- each way to begin is one of the things that a walk follows up
    cases h with
    | entrance hlabel haddress => exact hentrances a (mem_entrances.2 ⟨_, hlabel, haddress⟩)
    | call h hinsn hcall hlabel haddress =>
      exact hasked _ ((followed_of_reached hfresh h hinsn).call hcall _ _ hlabel haddress).1
    | behind h hinsn hcall hlabel haddress =>
      exact hasked _ ((followed_of_reached hfresh h hinsn).call hcall _ _ hlabel haddress).2
    | jump h hinsn hbranch hlabel hlocal haddress =>
      exact hasked _ ((followed_of_reached hfresh h hinsn).jump hbranch _ _ hlabel hlocal haddress)
    | fall h hinsn hbranch hfalls =>
      exact hasked _ ((followed_of_reached hfresh h hinsn).fall hbranch hfalls)

/-- Discovery cuts before exactly those entries from which a walk starts. -/
theorem cutBefore_discover_iff (hlt : a < unit.instructions.length) :
    (discover unit routines).value.cutBefore.contains a = true ↔ unit.Begins routines a := by
  obtain ⟨hmarked, hasked, _⟩ := discover_marked hfresh routines
  rw [← taken_discover_iff hfresh]
  exact ⟨fun hbefore => hasked a (hmarked.before a hbefore),
    fun htaken => (processed_of_taken hfresh hlt htaken).2⟩

/-- Blocks end behind branches, and nowhere else. Delay slots are plain, so that a walked branch is
gone over. -/
theorem cutAfter_discover_iff (hplain : unit.PlainSlots)
    (hwalked : (discover unit routines).value.walked.contains a = true) :
    (discover unit routines).value.cutAfter.contains a = true ↔
      ∃ insn, unit.instructions[a]? = some insn ∧ insn.isBranch = true := by
  constructor
  · exact (discover_marked hfresh routines).1.after a
  · rintro ⟨insn, hinsn, hbranch⟩
    rcases (walked_discover hfresh a).1 hwalked with hreached | hslot
    · exact (followed_of_reached hfresh hreached hinsn).after hbranch
    · -- an entry that was gone over as a delay slot only is no branch
      obtain ⟨b, branch, _, hbefore, hisbranch, hdelay, rfl, _⟩ := hslot
      have hno := (hplain.slot hbefore hisbranch hdelay hinsn).2
      rw [hbranch] at hno
      cases hno

end Discover

/-! ## The blocks -/

/-- Both walks have gone over the same entries and left the same marks on them. -/
structure Walk.SameMarks (walk walk' : Walk) : Prop where
  walked : ∀ a, walk.walked.contains a = walk'.walked.contains a
  before : ∀ a, walk.walked.contains a = true →
    walk.cutBefore.contains a = walk'.cutBefore.contains a
  after : ∀ a, walk.walked.contains a = true →
    walk.cutAfter.contains a = walk'.cutAfter.contains a

/-- The blocks depend only on the marks on walked entries; `n` bounds the entries that are left. -/
theorem Walk.SameMarks.formFrom_eq {walk' : Walk} (h : walk.SameMarks walk') {n : Nat}
    {current : Option Block} {entries : List Instruction} (hn : entries.length ≤ n) :
    formFrom walk a current entries = formFrom walk' a current entries := by
  induction n generalizing a current entries with
  | zero =>
    rw [List.length_eq_zero_iff.mp (Nat.le_zero.mp hn)]
    rfl
  | succ n ih =>
    cases entries with
    | nil => rfl
    | cons insn rest =>
      have hlength : rest.length ≤ n := Nat.le_of_succ_le_succ hn
      rw [formFrom, formFrom, ← h.walked a]
      split
      next hwalked =>
        rw [← h.before a hwalked, ← h.after a hwalked]
        -- a walked entry may take its delay slot along, so one or two entries are gone
        cases rest with
        | nil => rfl
        | cons slot rest =>
          dsimp only
          rw [ih (Nat.le_of_succ_le hlength), ih hlength, ih hlength]
      next => rw [ih hlength]

end Discovery

section Blocks

variable {unit : SourceUnit} {routines routines' : RoutineLabels}
variable (hfresh : unit.Fresh) (hplain : unit.PlainSlots)
  (hreached : ∀ a, unit.Reached routines a ↔ unit.Reached routines' a)
  (hbegins : ∀ a, unit.Begins routines a ↔ unit.Begins routines' a)
include hfresh hplain hreached hbegins

/-- Two sets of labels for which the same code can be run, from the same places, give the same
marks. -/
theorem sameMarks_discover :
    (discover unit routines).value.SameMarks (discover unit routines').value := by
  have hwalked : ∀ a, (discover unit routines).value.walked.contains a =
      (discover unit routines').value.walked.contains a := by
    intro a
    rw [Bool.eq_iff_iff, walked_discover hfresh, walked_discover hfresh, hreached a]
    simp only [SourceUnit.Slot, hreached]
  -- the marks are told by what is reached and by where walks start, the same for both
  refine ⟨hwalked, fun a ha => ?_, fun a ha => ?_⟩
  · have hlt := AddressSet.lt_bound_of_contains ha
    rw [(discover_marked hfresh routines).1.boundWalked] at hlt
    rw [Bool.eq_iff_iff, cutBefore_discover_iff hfresh hlt, cutBefore_discover_iff hfresh hlt,
      hbegins a]
  · rw [Bool.eq_iff_iff, cutAfter_discover_iff hfresh hplain ha,
      cutAfter_discover_iff hfresh hplain (hwalked a ▸ ha)]

/-- Which code can be run and where walks start from determines the blocks. -/
theorem cutBlocks_congr : cutBlocks unit routines = cutBlocks unit routines' :=
  (sameMarks_discover hfresh hplain hreached hbegins).formFrom_eq (Nat.le_refl _)

end Blocks

end RamOverlay
