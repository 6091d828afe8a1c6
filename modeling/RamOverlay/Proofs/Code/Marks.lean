import Mathlib.Data.Finset.Card
import Mathlib.Data.Finset.Range
import RamOverlay.Proofs.Code.Reached

/-!
# The marks of discovery

The walks mark exactly the code that can be run and its delay slots, whatever the order in which
they come to the entries.

* **`Consistent`**: what the marks tell is true of every entry that has one.
* **`Followed`, `Marked`**: an entry that a walk has gone over has all that it leads to marked, or
  asked for. A walk leaves out the entry that it comes to next (`due`), and a delay slot that it
  marks in passing is not gone over.
* **`walkFrom_marked`, `drain_marked`**: a walk keeps this up, and so do all walks together.
* **`walked_discover`**: at the end nothing is asked for, so that the marks are those of
  `SourceUnit.Reached` and `SourceUnit.Slot`.
-/

namespace RamOverlay.Discovery

variable {unit : SourceUnit} {routines : RoutineLabels}

/-- A walk has started from the place, or is to start there. -/
def Walk.Asked (walk : Walk) (a : Nat) : Prop := walk.taken.contains a = true ∨ a ∈ walk.pending

/-- All marks of `walk` are marks of `walk'`, and no further walk has started. -/
structure Walk.Extends (walk walk' : Walk) : Prop where
  walked : ∀ a, walk.walked.contains a = true → walk'.walked.contains a = true
  before : ∀ a, walk.cutBefore.contains a = true → walk'.cutBefore.contains a = true
  after : ∀ a, walk.cutAfter.contains a = true → walk'.cutAfter.contains a = true
  asked : ∀ a, walk.Asked a → walk'.Asked a
  taken : walk'.taken = walk.taken

theorem Walk.Extends.refl (walk : Walk) : walk.Extends walk :=
  ⟨fun _ h => h, fun _ h => h, fun _ h => h, fun _ h => h, rfl⟩

theorem Walk.Extends.trans {w₁ w₂ w₃ : Walk} (h₁ : w₁.Extends w₂) (h₂ : w₂.Extends w₃) :
    w₁.Extends w₃ where
  walked a h := h₂.walked a (h₁.walked a h)
  before a h := h₂.before a (h₁.before a h)
  after a h := h₂.after a (h₁.after a h)
  asked a h := h₂.asked a (h₁.asked a h)
  taken := h₂.taken.trans h₁.taken

/-- What the marks tell is true; only the walk from `due` may still have to begin. -/
structure Consistent (unit : SourceUnit) (routines : RoutineLabels) (due : Nat) (walk : Walk) :
    Prop where
  boundWalked : walk.walked.bound = unit.instructions.length
  boundBefore : walk.cutBefore.bound = unit.instructions.length
  boundAfter : walk.cutAfter.bound = unit.instructions.length
  boundTaken : walk.taken.bound = unit.instructions.length + 1
  sorted : walk.pending.Pairwise (· < ·)
  pending : ∀ a ∈ walk.pending, walk.taken.contains a = false ∧ a ≤ unit.instructions.length ∧
    (a < unit.instructions.length → unit.Reached routines a)
  taken : ∀ a < unit.instructions.length, walk.taken.contains a = true →
    unit.Reached routines a ∧ walk.cutBefore.contains a = true ∧
      (walk.walked.contains a = true ∨ a = due)
  walked : ∀ a, walk.walked.contains a = true → unit.Reached routines a ∨ unit.Slot routines a
  before : ∀ a, walk.cutBefore.contains a = true → walk.Asked a
  after : ∀ a, walk.cutAfter.contains a = true →
    ∃ insn, unit.instructions[a]? = some insn ∧ insn.isBranch = true

/-- All that the entry at `a` leads to is marked or asked for, but for the entry that is due. -/
structure Followed (unit : SourceUnit) (routines : RoutineLabels) (due : Nat) (walk : Walk)
    (a : Nat) (insn : Instruction) : Prop where
  next : insn.isBranch = false → a + 1 < unit.instructions.length →
    walk.walked.contains (a + 1) = true ∨ a + 1 = due
  call : insn.isCall = true → ∀ label target, insn.destination.label? = some label →
    unit.addressOf? label = some target → walk.Asked target ∧ walk.Asked (a + 1)
  jump : insn.isBranch = true → ∀ label target, insn.destination.label? = some label →
    label ∉ routines → unit.addressOf? label = some target → walk.Asked target
  fall : insn.isBranch = true → insn.isUnconditional = false →
    walk.Asked (unit.afterBranch a insn)
  slot : insn.isBranch = true → insn.delaySlot = true → a + 1 < unit.instructions.length →
    walk.walked.contains (a + 1) = true
  after : insn.isBranch = true → walk.cutAfter.contains a = true

/-- There is a branch right before `a`, so that a mark on `a` may be that of its delay slot. -/
def BranchBefore (unit : SourceUnit) (a : Nat) : Prop :=
  ∃ b insn, a = b + 1 ∧ unit.instructions[b]? = some insn ∧ insn.isBranch = true

/-- A walk has gone over the entry at `a`. -/
def Processed (unit : SourceUnit) (due : Nat) (walk : Walk) (a : Nat) : Prop :=
  walk.walked.contains a = true ∧
    (¬ BranchBefore unit a ∨ walk.taken.contains a = true ∧ a ≠ due)

/-- The marks are consistent, and closed under the flow of control but for what is asked for. -/
structure Marked (unit : SourceUnit) (routines : RoutineLabels) (due : Nat) (walk : Walk) : Prop
    extends Consistent unit routines due walk where
  followed : ∀ (a : Nat) (insn : Instruction), unit.instructions[a]? = some insn →
    Processed unit due walk a → Followed unit routines due walk a insn

/-- What was followed up in a walk is followed up in each later one. -/
theorem Followed.mono {due due' a : Nat} {walk walk' : Walk} {insn : Instruction}
    (h : Followed unit routines due walk a insn) (hext : walk.Extends walk')
    (hdue : due < unit.instructions.length → walk'.walked.contains due = true ∨ due = due') :
    Followed unit routines due' walk' a insn where
  next hbranch hlt := by
    -- only the next entry may still be due
    rcases h.next hbranch hlt with hwalked | rfl
    · exact .inl (hext.walked _ hwalked)
    · exact hdue hlt
  call hcall label target hlabel ha :=
    (h.call hcall label target hlabel ha).imp (hext.asked _) (hext.asked _)
  jump hbranch label target hlabel hlocal ha :=
    hext.asked _ (h.jump hbranch label target hlabel hlocal ha)
  fall hbranch hfalls := hext.asked _ (h.fall hbranch hfalls)
  slot hbranch hdelay hlt := hext.walked _ (h.slot hbranch hdelay hlt)
  after hbranch := hext.after _ (h.after hbranch)

/-! ## Single marks -/

section Steps

variable {due a : Nat} {walk : Walk}

theorem asked_enqueue {b : Nat} : (walk.enqueue a).Asked b ↔ walk.Asked b ∨ b = a := by
  unfold Walk.enqueue
  split
  next htaken =>
    refine ⟨Or.inl, fun h => h.elim id ?_⟩
    rintro rfl
    exact .inl htaken
  next =>
    simp only [Walk.Asked, Ascending.mem_insert]
    tauto

theorem extends_enqueue (walk : Walk) (a : Nat) : walk.Extends (walk.enqueue a) := by
  refine ⟨?_, ?_, ?_, fun b hb => asked_enqueue.2 (.inl hb), ?_⟩
  all_goals
    unfold Walk.enqueue
    split
    · simp
    · simp

/-- A pending entry has to be one that flow reaches. -/
theorem Consistent.enqueue (h : Consistent unit routines due walk)
    (hle : a ≤ unit.instructions.length)
    (hreached : a < unit.instructions.length → unit.Reached routines a) :
    Consistent unit routines due (walk.enqueue a) := by
  -- nothing is cut that was not cut before
  have hasked : ∀ b, (walk.enqueue a).cutBefore.contains b = true → (walk.enqueue a).Asked b := by
    intro b hb
    refine asked_enqueue.2 (.inl (h.before b ?_))
    unfold Walk.enqueue at hb
    split at hb <;> exact hb
  unfold Walk.enqueue at hasked ⊢
  split
  next => exact h
  next htaken =>
    rw [if_neg htaken] at hasked
    refine { h with sorted := ?_, pending := fun b hb => ?_, before := hasked }
    · exact Ascending.pairwise_insert (fun _ _ _ => Nat.lt_trans)
        (fun _ _ hnot hne => Nat.lt_of_le_of_ne (Nat.le_of_not_lt hnot) (Ne.symm hne)) a h.sorted
    · rcases (Ascending.mem_insert a b walk.pending).1 hb with rfl | hb
      · exact ⟨Bool.eq_false_iff.mpr htaken, hle, hreached⟩
      · exact h.pending b hb

theorem extends_visit (walk : Walk) (a : Nat) : walk.Extends (walk.visit a) :=
  ⟨fun b hb => by simp [Walk.visit, hb], fun _ h => h, fun _ h => h, fun _ h => h, rfl⟩

/-- An entry may be marked if flow reaches it or if it is a slot. -/
theorem Consistent.visit (h : Consistent unit routines due walk)
    (hreached : unit.Reached routines a ∨ unit.Slot routines a) :
    Consistent unit routines due (walk.visit a) := by
  refine { h with
    boundWalked := by simpa [Walk.visit] using h.boundWalked
    taken := fun b hlt hb => ?_
    walked := fun b hb => ?_ }
  · obtain ⟨hr, hbefore, hwalked⟩ := h.taken b hlt hb
    exact ⟨hr, hbefore, hwalked.imp_left ((extends_visit walk a).walked b)⟩
  · by_cases heq : b = a
    · exact heq ▸ hreached
    · exact h.walked b (by simpa [Walk.visit, heq] using hb)

/-- A block that is jumped to begins where it is asked for. -/
theorem Consistent.ask (h : Consistent unit routines due walk)
    (hle : a ≤ unit.instructions.length)
    (hreached : a < unit.instructions.length → unit.Reached routines a) :
    Consistent unit routines due
      ({ walk with cutBefore := walk.cutBefore.insert a }.enqueue a) := by
  have hnew := h.enqueue hle hreached
  have hcut : ∀ b, (walk.cutBefore.insert a).contains b = true →
      b = a ∨ walk.cutBefore.contains b = true := by
    intro b hb
    simp only [AddressSet.contains_insert, Bool.or_eq_true, Bool.and_eq_true, beq_iff_eq] at hb
    exact hb.imp_left And.left
  have hasked : ∀ b, (walk.cutBefore.insert a).contains b = true →
      ({ walk with cutBefore := walk.cutBefore.insert a }.enqueue a).Asked b := by
    intro b hb
    refine asked_enqueue.2 ?_
    rcases hcut b hb with rfl | hb
    · exact .inr rfl
    · exact .inl (h.before b hb)
  -- the place has been taken before, or it is pending now
  unfold Walk.enqueue at hnew hasked ⊢
  split at hnew
  next htaken =>
    rw [if_pos htaken] at hasked ⊢
    refine { h with boundBefore := ?_, taken := fun b hlt hb => ?_, before := hasked }
    · simpa using h.boundBefore
    · obtain ⟨hr, hbefore, hwalked⟩ := h.taken b hlt hb
      exact ⟨hr, by simp [hbefore], hwalked⟩
  next htaken =>
    rw [if_neg htaken] at hasked ⊢
    refine { hnew with boundBefore := ?_, taken := fun b hlt hb => ?_, before := hasked }
    · simpa using h.boundBefore
    · obtain ⟨hr, hbefore, hwalked⟩ := h.taken b hlt hb
      exact ⟨hr, by simp [hbefore], hwalked⟩

theorem extends_ask (walk : Walk) (a : Nat) :
    walk.Extends ({ walk with cutBefore := walk.cutBefore.insert a }.enqueue a) := by
  have hcut : walk.Extends { walk with cutBefore := walk.cutBefore.insert a } :=
    ⟨fun _ h => h, fun b hb => by simp [hb], fun _ h => h, fun _ h => h, rfl⟩
  exact hcut.trans (extends_enqueue _ a)

/-- A cut may be made behind a branch only. -/
theorem Consistent.cut (h : Consistent unit routines due walk) {insn : Instruction}
    (hinsn : unit.instructions[a]? = some insn) (hbranch : insn.isBranch = true) :
    Consistent unit routines due { walk with cutAfter := walk.cutAfter.insert a } := by
  refine { h with
    boundAfter := by simpa using h.boundAfter
    before := h.before
    after := fun b hb => ?_ }
  by_cases heq : b = a
  · exact heq ▸ ⟨insn, hinsn, hbranch⟩
  · exact h.after b (by simpa [heq] using hb)

theorem extends_cut (walk : Walk) (a : Nat) :
    walk.Extends { walk with cutAfter := walk.cutAfter.insert a } :=
  ⟨fun _ h => h, fun _ h => h, fun b hb => by simp [hb], fun _ h => h, rfl⟩

end Steps

/-! ## One entry -/

section Entry

variable {due a : Nat} {walk : Walk} {insn : Instruction}

/-- A call with a target in the unit asks for an entry that flow reaches. -/
theorem followCall_consistent (hfresh : unit.Fresh) (h : Consistent unit routines due walk)
    (hreached : unit.Reached routines a) (hinsn : unit.instructions[a]? = some insn) :
    Consistent unit routines due (followCall unit a insn walk).value := by
  unfold followCall
  split
  next hcall =>
    split
    next => exact h
    next label hlabel =>
      split
      next target ha =>
        have hlt := hfresh.lt_of_addressOf? ha
        have hbranch := Instruction.isBranch_of_isCall hcall (hfresh.natural a insn hinsn)
        -- the target is reached by the call, and what stands behind it by coming back
        refine (h.enqueue (Nat.le_of_lt hlt) fun _ => ?_).enqueue ?_ fun hlt => ?_
        · exact .call hreached hinsn hcall hlabel ha
        · exact (List.getElem?_eq_some_iff.mp hinsn).1
        · exact .next hreached hinsn hbranch hlt
      next => exact h
  next => exact h

theorem extends_followCall (unit : SourceUnit) (a : Nat) (insn : Instruction) (walk : Walk) :
    walk.Extends (followCall unit a insn walk).value := by
  unfold followCall
  split
  · split
    · exact .refl walk
    · split
      · exact (extends_enqueue _ _).trans (extends_enqueue _ _)
      · exact .refl walk
  · exact .refl walk

theorem walked_enqueue (walk : Walk) (a : Nat) : (walk.enqueue a).walked = walk.walked := by
  unfold Walk.enqueue
  split <;> rfl

/-- A call marks nothing by itself. -/
theorem walked_followCall (unit : SourceUnit) (a : Nat) (insn : Instruction) (walk : Walk) :
    (followCall unit a insn walk).value.walked = walk.walked := by
  unfold followCall
  split
  · split
    · rfl
    · split
      · rw [Traced.value_pure, walked_enqueue, walked_enqueue]
      · rfl
  · rfl

/-- A call asks for its target and for the entry after it. -/
theorem asked_followCall {label : String} {target : Nat} (hcall : insn.isCall = true)
    (hlabel : insn.destination.label? = some label) (ha : unit.addressOf? label = some target) :
    (followCall unit a insn walk).value.Asked target ∧
      (followCall unit a insn walk).value.Asked (a + 1) := by
  unfold followCall
  simp only [hcall, if_true, hlabel, ha, Traced.value_pure]
  exact ⟨asked_enqueue.2 (.inl (asked_enqueue.2 (.inr rfl))), asked_enqueue.2 (.inr rfl)⟩

/-- The target of a branch is the entry with its label, unless the label is one of a routine. -/
theorem localTarget?_eq_some {target : Nat} :
    localTarget? unit routines insn = some target ↔ ∃ label, insn.destination.label? = some label ∧
      label ∉ routines ∧ unit.addressOf? label = some target := by
  unfold localTarget?
  cases hlabel : insn.destination.label? with
  | none => simp
  | some label =>
    by_cases hlocal : label ∈ routines
    · simp [hlocal]
    · simp [hlocal]

/-- The local target of a branch is asked for, and a block begins there. -/
def askTarget (unit : SourceUnit) (routines : RoutineLabels) (insn : Instruction) (walk : Walk) :
    Walk :=
  match localTarget? unit routines insn with
  | some target => { walk with cutBefore := walk.cutBefore.insert target }.enqueue target
  | none => walk

/-- The delay slot of a branch is marked. -/
def visitSlot (unit : SourceUnit) (a : Nat) (insn : Instruction) (walk : Walk) : Walk :=
  if insn.delaySlot && a + 1 < unit.instructions.length then walk.visit (a + 1) else walk

/-- A branch is followed in three steps: its slot is marked, a cut is made, and its target and the
place behind it are asked for. -/
theorem followBranch_eq (unit : SourceUnit) (routines : RoutineLabels) (a : Nat)
    (insn : Instruction) (walk : Walk) :
    followBranch unit routines a insn walk =
      let marked := visitSlot unit a insn
        { askTarget unit routines insn walk with
          cutAfter := (askTarget unit routines insn walk).cutAfter.insert a }
      if insn.isUnconditional then marked else marked.enqueue (unit.afterBranch a insn) := by
  unfold followBranch askTarget visitSlot SourceUnit.afterBranch
  rfl

/-- The target of a branch is reached, since flow goes there. -/
theorem askTarget_consistent (hfresh : unit.Fresh) (h : Consistent unit routines due walk)
    (hreached : unit.Reached routines a) (hinsn : unit.instructions[a]? = some insn)
    (hbranch : insn.isBranch = true) :
    Consistent unit routines due (askTarget unit routines insn walk) := by
  unfold askTarget
  cases htarget : localTarget? unit routines insn with
  | none => exact h
  | some target =>
    obtain ⟨label, hlabel, hlocal, ha⟩ := localTarget?_eq_some.1 htarget
    exact h.ask (Nat.le_of_lt (hfresh.lt_of_addressOf? ha)) fun _ =>
      .jump hreached hinsn hbranch hlabel hlocal ha

theorem extends_askTarget (unit : SourceUnit) (routines : RoutineLabels) (insn : Instruction)
    (walk : Walk) : walk.Extends (askTarget unit routines insn walk) := by
  unfold askTarget
  split
  · exact extends_ask walk _
  · exact .refl walk

/-- The entry that is marked together with a branch is its slot. -/
theorem visitSlot_consistent (h : Consistent unit routines due walk)
    (hreached : unit.Reached routines a) (hinsn : unit.instructions[a]? = some insn)
    (hbranch : insn.isBranch = true) :
    Consistent unit routines due (visitSlot unit a insn walk) := by
  unfold visitSlot
  split
  next hslot =>
    simp only [Bool.and_eq_true, decide_eq_true_eq] at hslot
    exact h.visit (.inr ⟨a, insn, hreached, hinsn, hbranch, hslot.1, rfl, hslot.2⟩)
  next => exact h

theorem extends_visitSlot (unit : SourceUnit) (a : Nat) (insn : Instruction) (walk : Walk) :
    walk.Extends (visitSlot unit a insn walk) := by
  unfold visitSlot
  split
  · exact extends_visit walk _
  · exact .refl walk

/-- All that following a branch does is consistent. -/
theorem followBranch_consistent (hfresh : unit.Fresh) (h : Consistent unit routines due walk)
    (hreached : unit.Reached routines a) (hinsn : unit.instructions[a]? = some insn)
    (hbranch : insn.isBranch = true) :
    Consistent unit routines due (followBranch unit routines a insn walk) := by
  have hask := askTarget_consistent hfresh h hreached hinsn hbranch
  have hmarked := visitSlot_consistent (hask.cut hinsn hbranch) hreached hinsn hbranch
  rw [followBranch_eq]
  dsimp only
  split
  next => exact hmarked
  next hfalls =>
    refine hmarked.enqueue ?_ fun hlt =>
      .fall hreached hinsn hbranch (Bool.eq_false_iff.mpr hfalls) hlt
    have hlt := (List.getElem?_eq_some_iff.mp hinsn).1
    -- the place behind a branch is one or two on, the latter only if it exists
    unfold SourceUnit.afterBranch
    split
    next hslot =>
      simp only [Bool.and_eq_true, decide_eq_true_eq] at hslot
      omega
    next => omega

theorem extends_followBranch (unit : SourceUnit) (routines : RoutineLabels) (a : Nat)
    (insn : Instruction) (walk : Walk) :
    walk.Extends (followBranch unit routines a insn walk) := by
  have hmarked := ((extends_askTarget unit routines insn walk).trans (extends_cut _ a)).trans
    (extends_visitSlot unit a insn _)
  rw [followBranch_eq]
  dsimp only
  split
  · exact hmarked
  · exact hmarked.trans (extends_enqueue _ _)

/-- All that a branch leads to is marked or asked for afterwards. -/
theorem followed_followBranch (hfresh : unit.Fresh) (h : Consistent unit routines due walk)
    (hreached : unit.Reached routines a) (hinsn : unit.instructions[a]? = some insn)
    (hcall : insn.isCall = false) (hbranch : insn.isBranch = true) :
    Followed unit routines due (followBranch unit routines a insn walk) a insn := by
  have hask := askTarget_consistent hfresh h hreached hinsn hbranch
  have hcut := hask.cut hinsn hbranch
  -- asking for the place behind the branch takes no mark away
  have hend : ∀ marked : Walk, marked.Extends
      (if insn.isUnconditional then marked else marked.enqueue (unit.afterBranch a insn)) := by
    intro marked
    split
    · exact .refl marked
    · exact extends_enqueue _ _
  rw [followBranch_eq]
  refine ⟨?_, ?_, fun _ label target hlabel hlocal ha => ?_, fun _ hfalls => ?_,
    fun _ hdelay hlt => ?_, fun _ => ?_⟩
  · simp [hbranch]
  · simp [hcall]
  · have htarget : (askTarget unit routines insn walk).Asked target := by
      unfold askTarget
      rw [localTarget?_eq_some.2 ⟨label, hlabel, hlocal, ha⟩]
      exact asked_enqueue.2 (.inr rfl)
    exact (hend _).asked _ ((extends_visitSlot unit a insn _).asked _ htarget)
  · rw [if_neg (by simp [hfalls])]
    exact asked_enqueue.2 (.inr rfl)
  · refine (hend _).walked _ ?_
    rw [visitSlot, if_pos (by simp [hdelay, hlt])]
    have hbound := hcut.boundWalked
    simp [Walk.visit, hbound, hlt]
  · refine (hend _).after _ ((extends_visitSlot unit a insn _).after _ ?_)
    have hbound : a < (askTarget unit routines insn walk).cutAfter.bound := by
      rw [hask.boundAfter]
      exact (List.getElem?_eq_some_iff.mp hinsn).1
    simp [hbound]

/-- A branch marks no entry as walked but its delay slot. -/
theorem walked_followBranch {b : Nat}
    (hb : (followBranch unit routines a insn walk).walked.contains b = true) :
    walk.walked.contains b = true ∨ b = a + 1 := by
  have hask : (askTarget unit routines insn walk).walked = walk.walked := by
    unfold askTarget
    split
    · rw [walked_enqueue]
    · rfl
  rw [followBranch_eq] at hb
  have hmarked : (visitSlot unit a insn { askTarget unit routines insn walk with
      cutAfter := (askTarget unit routines insn walk).cutAfter.insert a }).walked.contains b =
        true := by
    dsimp only at hb
    split at hb
    · exact hb
    · rwa [walked_enqueue] at hb
  -- only the visit of the slot marks an entry
  unfold visitSlot at hmarked
  split at hmarked
  · simp only [Walk.visit, hask, AddressSet.contains_insert, Bool.or_eq_true, Bool.and_eq_true,
      beq_iff_eq] at hmarked
    exact hmarked.symm.imp_right And.left
  · exact .inl (by simpa [hask] using hmarked)

end Entry

/-! ## One walk -/

section Walk

variable {due a : Nat} {walk : Walk} {insn : Instruction}

/-- The place that is due next may be given up if it is marked already. -/
theorem Consistent.redue {due' : Nat} (h : Consistent unit routines due walk)
    (hdue : due < unit.instructions.length → walk.walked.contains due = true ∨ due = due') :
    Consistent unit routines due' walk := by
  refine { h with taken := fun b hlt hb => ?_ }
  obtain ⟨hr, hbefore, hwalked⟩ := h.taken b hlt hb
  refine ⟨hr, hbefore, hwalked.elim .inl ?_⟩
  rintro rfl
  exact hdue hlt

/-- An entry that is marked and does not stand after a branch has been gone over, so that nothing is
due when a walk comes to it. -/
theorem Marked.settle (h : Marked unit routines due walk)
    (hdue : due < unit.instructions.length →
      walk.walked.contains due = true ∧ ¬ BranchBefore unit due) :
    Marked unit routines unit.instructions.length walk where
  toConsistent := h.redue fun hlt => .inl (hdue hlt).1
  followed b insn hinsn hb := by
    have hlt := (List.getElem?_eq_some_iff.mp hinsn).1
    have hprocessed : Processed unit due walk b := by
      refine ⟨hb.1, ?_⟩
      -- the due entry itself counts now, since no branch stands before it
      by_cases heq : b = due
      · subst heq
        exact .inl (hdue hlt).2
      · exact hb.2.imp_right fun htaken => ⟨htaken.1, heq⟩
    exact (h.followed b insn hinsn hprocessed).mono (.refl walk) fun hlt => .inl (hdue hlt).1

/-- The walk goes over an entry that is no branch and comes to the next one. -/
theorem Marked.step (hfresh : unit.Fresh) (h : Marked unit routines a walk)
    (hreached : unit.Reached routines a) (hinsn : unit.instructions[a]? = some insn)
    (hbranch : insn.isBranch = false) :
    Marked unit routines (a + 1) (followCall unit a insn (walk.visit a)).value := by
  have hlt := (List.getElem?_eq_some_iff.mp hinsn).1
  have hext := (extends_visit walk a).trans (extends_followCall unit a insn (walk.visit a))
  have hwalked : (followCall unit a insn (walk.visit a)).value.walked.contains a = true := by
    rw [walked_followCall]
    simp [Walk.visit, h.boundWalked, hlt]
  have hconsistent := followCall_consistent hfresh (h.toConsistent.visit (.inl hreached)) hreached
    hinsn
  refine ⟨hconsistent.redue fun _ => .inl hwalked, fun b other hother hb => ?_⟩
  by_cases heq : b = a
  · subst heq
    -- all that the entry itself asks for: the next one, and what it calls
    obtain rfl : insn = other := Option.some.inj (hinsn.symm.trans hother)
    exact ⟨fun _ _ => .inr rfl, fun hcall _ _ hlabel ha => asked_followCall hcall hlabel ha,
      by simp [hbranch], by simp [hbranch], by simp [hbranch], by simp [hbranch]⟩
  · -- an entry that counts as gone over did so before
    have hprocessed : Processed unit a walk b := by
      have hbwalked := hb.1
      rw [walked_followCall] at hbwalked
      refine ⟨by simpa [Walk.visit, heq] using hbwalked, hb.2.imp_right fun htaken => ?_⟩
      exact ⟨hext.taken ▸ htaken.1, heq⟩
    exact (h.followed b other hother hprocessed).mono hext fun _ => .inl hwalked

/-- The walk ends at a branch. -/
theorem Marked.stop (hfresh : unit.Fresh) (h : Marked unit routines a walk)
    (hreached : unit.Reached routines a) (hinsn : unit.instructions[a]? = some insn)
    (hbranch : insn.isBranch = true) :
    Marked unit routines unit.instructions.length
      (followBranch unit routines a insn (followCall unit a insn (walk.visit a)).value) := by
  have hlt := (List.getElem?_eq_some_iff.mp hinsn).1
  have hcall : insn.isCall = false := by
    by_contra hcall
    have hno := Instruction.isBranch_of_isCall (by simpa using hcall) (hfresh.natural a insn hinsn)
    simp [hbranch] at hno
  have hext := ((extends_visit walk a).trans (extends_followCall unit a insn (walk.visit a))).trans
    (extends_followBranch unit routines a insn _)
  have hconsistent := followCall_consistent hfresh (h.toConsistent.visit (.inl hreached)) hreached
    hinsn
  have hwalked : (followBranch unit routines a insn
      (followCall unit a insn (walk.visit a)).value).walked.contains a = true := by
    refine (extends_followBranch unit routines a insn _).walked a ?_
    rw [walked_followCall]
    simp [Walk.visit, h.boundWalked, hlt]
  refine ⟨(followBranch_consistent hfresh hconsistent hreached hinsn hbranch).redue
    fun _ => .inl hwalked, fun b other hother hb => ?_⟩
  by_cases heq : b = a
  · subst heq
    obtain rfl : insn = other := Option.some.inj (hinsn.symm.trans hother)
    exact (followed_followBranch hfresh hconsistent hreached hinsn hcall hbranch).mono (.refl _)
      fun _ => .inl hwalked
  · have hprocessed : Processed unit a walk b := by
      have htaken : walk.taken.contains b = true ∧ b ≠ unit.instructions.length →
          walk.taken.contains b = true ∧ b ≠ a := fun h => ⟨h.1, heq⟩
      rcases walked_followBranch hb.1 with hbwalked | rfl
      · rw [walked_followCall] at hbwalked
        exact ⟨by simpa [Walk.visit, heq] using hbwalked,
          hb.2.imp_right fun h => htaken (hext.taken ▸ h)⟩
      · -- the delay slot is gone over only if a walk has started there
        have hnew := hb.2.resolve_left fun hno => hno ⟨a, insn, rfl, hinsn, hbranch⟩
        have htaken := htaken (hext.taken ▸ hnew)
        have hlt := (List.getElem?_eq_some_iff.mp hother).1
        exact ⟨(h.taken _ hlt htaken.1).2.2.resolve_right heq, .inr htaken⟩
    exact (h.followed b other hother hprocessed).mono hext fun _ => .inl hwalked

/-- A walk over the entries from `a` on leaves nothing due. -/
theorem walkFrom_marked (hfresh : unit.Fresh) {start : Nat} (hstart : start ≤ a)
    {entries : List Instruction} (hentries : unit.instructions.drop a = entries)
    (h : Marked unit routines a walk)
    (hreached : a < unit.instructions.length → unit.Reached routines a)
    (hbefore : a ≠ start → ¬ BranchBefore unit a) :
    Marked unit routines unit.instructions.length
        (walkFrom unit routines start a entries walk).value ∧
      walk.Extends (walkFrom unit routines start a entries walk).value := by
  induction entries generalizing a walk with
  | nil =>
    have hle : unit.instructions.length ≤ a := List.drop_eq_nil_iff.mp hentries
    exact ⟨h.settle fun hlt => absurd hlt (Nat.not_lt.mpr hle), .refl walk⟩
  | cons insn rest ih =>
    have hinsn : unit.instructions[a]? = some insn := by
      rw [← List.head?_drop, hentries, List.head?_cons]
    have hlt := (List.getElem?_eq_some_iff.mp hinsn).1
    rw [walkFrom]
    split
    -- the walk stops where another one has been, and at a branch
    next hold => exact ⟨h.settle fun _ => ⟨hold.2, hbefore hold.1⟩, .refl walk⟩
    next =>
      have hext := (extends_visit walk a).trans (extends_followCall unit a insn (walk.visit a))
      rw [Traced.value_bind]
      split
      next hbranch =>
        exact ⟨h.stop hfresh (hreached hlt) hinsn hbranch,
          hext.trans (extends_followBranch unit routines a insn _)⟩
      next hbranch =>
        have hbranch := Bool.eq_false_iff.mpr hbranch
        have hrest := ih (Nat.le_succ_of_le hstart) (by rw [← List.tail_drop, hentries]; rfl)
          (h.step hfresh (hreached hlt) hinsn hbranch)
          (fun hlt' => .next (hreached hlt) hinsn hbranch hlt') fun _ => ?_
        · exact ⟨hrest.1, hext.trans hrest.2⟩
        · rintro ⟨b, other, hb, hother, hother'⟩
          obtain rfl : a = b := by omega
          obtain rfl : insn = other := Option.some.inj (hinsn.symm.trans hother)
          simp [hbranch] at hother'

end Walk

theorem insert_of_bound_le {set : AddressSet} {a : Nat}
    (h : set.bound ≤ a) : set.insert a = set := by
  rw [AddressSet.insert, Array.setIfInBounds_eq_of_size_le h]

/-! ## All walks -/

/-- The places from which no walk has started. -/
def remaining (unit : SourceUnit) (walk : Walk) : Finset Nat :=
  (Finset.range (unit.instructions.length + 1)).filter fun a => walk.taken.contains a = false

/-- What is asked for stays so, or a walk starts from it. -/
theorem asked_begin {walk : Walk} {start : Nat} {pending : List Nat}
    (h : Marked unit routines unit.instructions.length walk)
    (hpending : walk.pending = start :: pending) {a : Nat} (ha : walk.Asked a) :
    ({ walk with
      pending, taken := walk.taken.insert start, cutBefore := walk.cutBefore.insert start } :
        Walk).Asked a := by
  have hbound : start < walk.taken.bound := by
    rw [h.boundTaken]
    exact Nat.lt_succ_of_le (h.pending start (by simp [hpending])).2.1
  rcases ha with ha | ha
  · exact .inl (by simp [ha])
  · rw [hpending] at ha
    -- the place that the walk starts from is taken now, the others are still pending
    rcases List.mem_cons.mp ha with rfl | ha
    · exact .inl (by simp [hbound])
    · exact .inr ha

/-- A walk starts from the lowest place that is asked for. -/
theorem Marked.begin {walk : Walk} {start : Nat} {pending : List Nat}
    (h : Marked unit routines unit.instructions.length walk)
    (hpending : walk.pending = start :: pending) :
    Marked unit routines start { walk with
      pending, taken := walk.taken.insert start, cutBefore := walk.cutBefore.insert start } := by
  have hmem : start ∈ walk.pending := by simp [hpending]
  have hsorted := List.pairwise_cons.mp (hpending ▸ h.sorted)
  have hbound : start < walk.taken.bound := by
    rw [h.boundTaken]
    exact Nat.lt_succ_of_le (h.pending start hmem).2.1
  have hasked := fun a ha => asked_begin h hpending (a := a) ha
  refine { h with
    boundBefore := by simpa using h.boundBefore
    boundTaken := by simpa using h.boundTaken
    sorted := hsorted.2
    pending := fun a ha => ?_
    taken := fun a hlt ha => ?_
    before := fun a ha => ?_
    followed := fun a insn hinsn ha => ?_ }
  · -- the places that are left are behind the one that is taken
    obtain ⟨htaken, hrest⟩ := h.pending a (hpending ▸ List.mem_cons_of_mem start ha)
    have hne : a ≠ start := Nat.ne_of_gt (hsorted.1 a ha)
    exact ⟨by simp [htaken, hne], hrest⟩
  · by_cases heq : a = start
    · subst heq
      exact ⟨(h.pending a hmem).2.2 hlt, by simp [h.boundBefore, hlt], .inr rfl⟩
    · obtain ⟨hr, hbefore, hwalked⟩ := h.taken a hlt (by simpa [heq] using ha)
      exact ⟨hr, by simp [hbefore], .inl (hwalked.resolve_right (Nat.ne_of_lt hlt))⟩
  · by_cases heq : a = start
    · subst heq
      exact .inl (by simp [hbound])
    · exact hasked a (h.before a (by simpa [heq] using ha))
  · -- an entry that counts as gone over with `start` due has been gone over before
    have hlt' := (List.getElem?_eq_some_iff.mp hinsn).1
    have hprocessed : Processed unit unit.instructions.length walk a := by
      refine ⟨ha.1, ha.2.imp_right fun htaken => ⟨?_, Nat.ne_of_lt hlt'⟩⟩
      simpa [htaken.2] using htaken.1
    have hfollowed := h.followed a insn hinsn hprocessed
    exact ⟨fun hbranch hlt => .inl ((hfollowed.next hbranch hlt).resolve_right (Nat.ne_of_lt hlt)),
      fun hcall label target hlabel htarget =>
        (hfollowed.call hcall label target hlabel htarget).imp (hasked _) (hasked _),
      fun hbranch label target hlabel hlocal htarget =>
        hasked _ (hfollowed.jump hbranch label target hlabel hlocal htarget),
      fun hbranch hfalls => hasked _ (hfollowed.fall hbranch hfalls), hfollowed.slot,
      hfollowed.after⟩

theorem mem_remaining {walk : Walk} (h : Marked unit routines unit.instructions.length walk)
    {a : Nat} (ha : a ∈ walk.pending) : a ∈ remaining unit walk := by
  obtain ⟨htaken, hle, _⟩ := h.pending a ha
  exact Finset.mem_filter.mpr ⟨Finset.mem_range.mpr (Nat.lt_succ_of_le hle), htaken⟩

/-- Beginning a walk takes one entry out of those that remain, so the fuel lasts. -/
theorem card_remaining_begin {walk : Walk} {start : Nat} {pending : List Nat}
    (h : Marked unit routines unit.instructions.length walk)
    (hpending : walk.pending = start :: pending) :
    (remaining unit { walk with
      pending, taken := walk.taken.insert start
      cutBefore := walk.cutBefore.insert start }).card < (remaining unit walk).card := by
  have hmem := mem_remaining h (a := start) (by simp [hpending])
  have hbound : start < walk.taken.bound := by
    rw [h.boundTaken]
    exact Finset.mem_range.mp (Finset.mem_filter.mp hmem).1
  -- the start is gone from the set, and nothing came in
  refine Finset.card_lt_card (Finset.ssubset_iff_of_subset ?_ |>.mpr ⟨start, hmem, ?_⟩)
  · intro a ha
    obtain ⟨hrange, htaken⟩ := Finset.mem_filter.mp ha
    refine Finset.mem_filter.mpr ⟨hrange, ?_⟩
    rw [AddressSet.contains_insert] at htaken
    exact (Bool.or_eq_false_iff.mp htaken).2
  · simp [remaining, hbound]

/-- With fuel for all places from which no walk has started, nothing stays asked for. -/
theorem drain_marked (hfresh : unit.Fresh) {fuel : Nat} {walk : Walk}
    (h : Marked unit routines unit.instructions.length walk)
    (hfuel : (remaining unit walk).card ≤ fuel) :
    Marked unit routines unit.instructions.length (drain unit routines fuel walk).value ∧
      (drain unit routines fuel walk).value.pending = [] ∧
      ∀ a, walk.Asked a → (drain unit routines fuel walk).value.taken.contains a = true := by
  induction fuel generalizing walk with
  | zero =>
    have hpending : walk.pending = [] := by
      refine List.eq_nil_iff_forall_not_mem.mpr fun a ha => ?_
      have hmem := mem_remaining h ha
      rw [Finset.card_eq_zero.mp (Nat.le_zero.mp hfuel)] at hmem
      simp at hmem
    refine ⟨h, hpending, fun a ha => ha.resolve_right ?_⟩
    simp [hpending]
  | succ fuel ih =>
    cases hpending : walk.pending with
    | nil =>
      unfold drain
      rw [hpending]
      exact ⟨h, hpending, fun a ha => ha.resolve_right (by simp [hpending])⟩
    | cons start pending =>
      have hbegin := h.begin hpending
      have hremaining := card_remaining_begin h hpending
      have hasked := fun a ha => asked_begin h hpending (a := a) ha
      unfold drain
      rw [hpending]
      dsimp only
      split
      next hlt =>
        obtain ⟨hwalk, hext⟩ := walkFrom_marked hfresh (Nat.le_refl start) rfl hbegin
          (fun _ => (h.pending start (by simp [hpending])).2.2 hlt) fun hne => absurd rfl hne
        obtain ⟨hmarked, hnil, htaken⟩ := ih hwalk (by
          rw [remaining, hext.taken]
          exact Nat.le_of_lt_succ (Nat.lt_of_lt_of_le hremaining hfuel))
        exact ⟨hmarked, hnil, fun a ha => htaken a (hext.asked a (hasked a ha))⟩
      next hge =>
        -- the place behind the last entry
        have hcut : walk.cutBefore.insert start = walk.cutBefore :=
          insert_of_bound_le (h.boundBefore ▸ Nat.le_of_not_lt hge)
        rw [hcut] at hbegin hremaining hasked
        obtain ⟨hmarked, hnil, htaken⟩ := ih (hbegin.settle fun hlt => absurd hlt hge)
          (Nat.le_of_lt_succ (Nat.lt_of_lt_of_le hremaining hfuel))
        exact ⟨hmarked, hnil, fun a ha => htaken a (hasked a ha)⟩

/-! ## Discovery -/

theorem mem_entrances {a : Nat} :
    a ∈ entrances unit routines ↔ ∃ label ∈ routines, unit.addressOf? label = some a := by
  simp [entrances]

theorem marked_start (hfresh : unit.Fresh) :
    Marked unit routines unit.instructions.length
      (.start unit.instructions.length (entrances unit routines)) where
  boundWalked := by simp [Walk.start]
  boundBefore := by simp [Walk.start]
  boundAfter := by simp [Walk.start]
  boundTaken := by simp [Walk.start]
  sorted := Ascending.pairwise_ofList (fun _ _ _ => Nat.lt_trans)
    (fun _ _ hnot hne => Nat.lt_of_le_of_ne (Nat.le_of_not_lt hnot) (Ne.symm hne)) _
  -- nothing is marked yet, and only the entrances are asked for
  pending a ha := by
    obtain ⟨label, hlabel, haddress⟩ := mem_entrances.1 ha
    exact ⟨by simp [Walk.start], Nat.le_of_lt (hfresh.lt_of_addressOf? haddress),
      fun _ => .entrance hlabel haddress⟩
  taken a _ ha := by simp [Walk.start] at ha
  walked a ha := by simp [Walk.start] at ha
  before a ha := by simp [Walk.start] at ha
  after a ha := by simp [Walk.start] at ha
  followed a insn _ ha := by simp [Processed, Walk.start] at ha

variable (hfresh : unit.Fresh)
include hfresh

/-- Discovery comes to its end: every place that was asked for has been taken, the entrances among
them. -/
theorem discover_marked (routines : RoutineLabels) :
    Marked unit routines unit.instructions.length (discover unit routines).value ∧
      (∀ a, (discover unit routines).value.Asked a →
        (discover unit routines).value.taken.contains a = true) ∧
      ∀ a ∈ entrances unit routines,
        (discover unit routines).value.taken.contains a = true := by
  -- each walk takes a place, and there is one more of them than entries
  have hfuel : (remaining unit (.start unit.instructions.length (entrances unit routines))).card ≤
      unit.instructions.length + 1 := by
    refine Nat.le_trans (Finset.card_filter_le _ _) ?_
    rw [Finset.card_range]
  obtain ⟨hmarked, hnil, htaken⟩ := drain_marked hfresh (marked_start hfresh) hfuel
  refine ⟨hmarked, fun a ha => ha.resolve_right ?_, fun a ha => htaken a (.inr ha)⟩
  rw [discover, hnil]
  exact List.not_mem_nil

/-- A place from which a walk has started has been gone over, and a block begins there. -/
theorem processed_of_taken {a : Nat} (hlt : a < unit.instructions.length)
    (ha : (discover unit routines).value.taken.contains a = true) :
    Processed unit unit.instructions.length (discover unit routines).value a ∧
      (discover unit routines).value.cutBefore.contains a = true := by
  obtain ⟨_, hbefore, hwalked⟩ := (discover_marked hfresh routines).1.taken a hlt ha
  have hne := Nat.ne_of_lt hlt
  exact ⟨⟨hwalked.resolve_right hne, .inr ⟨ha, hne⟩⟩, hbefore⟩

/-- All code that can be run has been gone over. -/
theorem processed_of_reached {a : Nat} (h : unit.Reached routines a) :
    Processed unit unit.instructions.length (discover unit routines).value a := by
  obtain ⟨hmarked, hasked, hentrances⟩ := discover_marked hfresh routines
  have hlt := h.lt hfresh
  -- where control goes next was marked or asked for when the entry before was gone over
  induction h with
  | entrance hlabel ha =>
    exact (processed_of_taken hfresh hlt (hentrances _ (mem_entrances.2 ⟨_, hlabel, ha⟩))).1
  | @next a insn h hinsn hbranch _ ih =>
    have hfollowed := hmarked.followed a insn hinsn (ih (h.lt hfresh))
    refine ⟨(hfollowed.next hbranch hlt).resolve_right (Nat.ne_of_lt hlt), .inl ?_⟩
    rintro ⟨b, other, hb, hother, hother'⟩
    obtain rfl : a = b := by omega
    obtain rfl : insn = other := Option.some.inj (hinsn.symm.trans hother)
    simp [hbranch] at hother'
  | @call a target insn label h hinsn hcall hlabel ha ih =>
    have hfollowed := hmarked.followed a insn hinsn (ih (h.lt hfresh))
    exact (processed_of_taken hfresh hlt (hasked _ (hfollowed.call hcall _ _ hlabel ha).1)).1
  | @jump a target insn label h hinsn hbranch hlabel hlocal ha ih =>
    have hfollowed := hmarked.followed a insn hinsn (ih (h.lt hfresh))
    exact (processed_of_taken hfresh hlt
      (hasked _ (hfollowed.jump hbranch _ _ hlabel hlocal ha))).1
  | @fall a insn h hinsn hbranch hfalls _ ih =>
    have hfollowed := hmarked.followed a insn hinsn (ih (h.lt hfresh))
    exact (processed_of_taken hfresh hlt (hasked _ (hfollowed.fall hbranch hfalls))).1

theorem followed_of_reached {a : Nat} {insn : Instruction} (h : unit.Reached routines a)
    (hinsn : unit.instructions[a]? = some insn) :
    Followed unit routines unit.instructions.length (discover unit routines).value a insn :=
  (discover_marked hfresh routines).1.followed a insn hinsn (processed_of_reached hfresh h)

/-- Discovery marks the code that can be run, and its delay slots. -/
theorem walked_discover (a : Nat) :
    (discover unit routines).value.walked.contains a = true ↔
      unit.Reached routines a ∨ unit.Slot routines a := by
  constructor
  · exact (discover_marked hfresh routines).1.walked a
  · rintro (h | ⟨b, insn, hb, hinsn, hbranch, hdelay, rfl, hlt⟩)
    · exact (processed_of_reached hfresh h).1
    · exact (followed_of_reached hfresh hb hinsn).slot hbranch hdelay hlt

end RamOverlay.Discovery
