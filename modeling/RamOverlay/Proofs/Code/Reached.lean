import Mathlib.Order.Basic
import RamOverlay.Flow.Discovery

/-!
# The code that can be run

Which entries of a unit can be run from its routine labels, told by the entries alone.

* **`SourceUnit.Fresh`**: a unit as it comes from the parser.
* **`SourceUnit.Reached`**: the least set of addresses that holds the routine labels and is closed
  under the flow of control.
* **`SourceUnit.Slot`**: the delay slots of the branches in it. A delay slot is executed with its
  branch, and may be reached on its own as well; but then it is no branch
  (`isBranch_of_slot_of_reached`).
-/

namespace RamOverlay

/-! ## Entries -/

namespace Instruction

variable {insn : Instruction}

theorem isBranch_of_isLabel (hlabel : insn.isLabel = true) (hclass : insn.callClass = .natural) :
    insn.isBranch = false := by
  have hop : insn.operator = "" := by
    simp only [isLabel, Bool.and_eq_true, String.isEmpty_iff] at hlabel
    exact hlabel.2
  simp only [isBranch, neverFallsThrough, loadsPc, writesPc, isTableBranch, isCompareBranch,
    hop, hclass]
  rfl

theorem isBranch_of_isCall (hcall : insn.isCall = true) (hclass : insn.callClass = .natural) :
    insn.isBranch = false := by
  have hop : insn.operator = "bl" ∨ insn.operator = "blx" := by
    simpa [isCall, isNaturalCall, hclass, Thumb2.calls] using hcall
  simp only [isBranch, neverFallsThrough, loadsPc, writesPc, isTableBranch, isCompareBranch,
    hclass]
  rcases hop with hop | hop <;> rw [hop] <;> rfl

/-- An entry defines one label at most. -/
theorem eq_of_definesLabel {label label' : String} (h : insn.definesLabel label = true)
    (h' : insn.definesLabel label' = true) : label = label' := by
  have hname := beq_iff_eq.mp (Bool.and_eq_true_iff.mp h).2
  have hname' := beq_iff_eq.mp (Bool.and_eq_true_iff.mp h').2
  exact Option.some.inj (hname.symm.trans hname')

end Instruction

namespace SourceUnit

/-- Every entry stands at its own address, and none has been reclassified. -/
structure Fresh (unit : SourceUnit) : Prop where
  address : ∀ (a : Nat) (insn : Instruction), unit.instructions[a]? = some insn → insn.address = a
  natural : ∀ (a : Nat) (insn : Instruction), unit.instructions[a]? = some insn →
    insn.callClass = .natural

/-- A parsed entry has the address it was parsed for, and no class yet. -/
theorem entry?_eq_some {line address : Nat} {cs : List Char} {insn : Instruction}
    (h : entry? line address cs = some insn) :
    insn.address = address ∧ insn.callClass = .natural := by
  unfold entry? at h
  split at h
  · cases h
    exact ⟨rfl, rfl⟩
  · cases h
    exact ⟨rfl, rfl⟩
  · cases h
  · cases h

/-- Parsed entries are numbered one after the other, from the first address on. -/
theorem getElem?_entriesFrom {line address i : Nat} {lines : List (List Char)}
    {insn : Instruction} (h : (entriesFrom line address lines)[i]? = some insn) :
    insn.address = address + i ∧ insn.callClass = .natural := by
  induction lines generalizing line address i with
  | nil => simp [entriesFrom] at h
  | cons cs lines ih =>
    rw [entriesFrom] at h
    -- a line without an entry takes no address
    cases hentry : entry? line address cs with
    | none => exact ih (by simpa [hentry] using h)
    | some first =>
      simp only [hentry] at h
      cases i with
      | zero =>
        obtain rfl : first = insn := by simpa using h
        exact entry?_eq_some hentry
      | succ i =>
        obtain ⟨haddress, hclass⟩ := ih (by simpa using h)
        exact ⟨by omega, hclass⟩

/-- What the parser makes of a text is fresh. -/
theorem fresh_parse (name text : String) : (parse name text).value.Fresh where
  address a insn h := by simpa using (getElem?_entriesFrom h).1
  natural a insn h := (getElem?_entriesFrom h).2

/-- Delay slots may be marked in a unit that was just parsed. -/
theorem Fresh.markDelaySlots {unit : SourceUnit} (h : unit.Fresh) (lines : List Nat) :
    (unit.markDelaySlots lines).Fresh := by
  -- marking a slot changes neither the address nor the class
  have hmark : ∀ (a : Nat) (insn : Instruction),
    (unit.markDelaySlots lines).instructions[a]? = some insn →
      ∃ old, unit.instructions[a]? = some old ∧ insn.address = old.address ∧
        insn.callClass = old.callClass := by
    intro a insn hinsn
    simp only [SourceUnit.markDelaySlots, List.getElem?_map, Option.map_eq_some_iff] at hinsn
    obtain ⟨old, hold, rfl⟩ := hinsn
    refine ⟨old, hold, ?_⟩
    split <;> exact ⟨rfl, rfl⟩
  constructor
  · intro a insn hinsn
    obtain ⟨old, hold, haddress, _⟩ := hmark a insn hinsn
    exact haddress.trans (h.address a old hold)
  · intro a insn hinsn
    obtain ⟨old, hold, _, hclass⟩ := hmark a insn hinsn
    exact hclass.trans (h.natural a old hold)

/-- A label is defined where it says. -/
theorem Fresh.getElem?_addressOf? {unit : SourceUnit} (h : unit.Fresh) {label : String} {a : Nat}
    (ha : unit.addressOf? label = some a) :
    ∃ insn, unit.instructions[a]? = some insn ∧ insn.definesLabel label = true := by
  simp only [addressOf?, Option.map_eq_some_iff] at ha
  obtain ⟨insn, hinsn, rfl⟩ := ha
  obtain ⟨hmem, hdefines⟩ := List.mem_filter.mp (List.mem_of_getLast? hinsn)
  obtain ⟨i, hi⟩ := List.mem_iff_getElem?.mp hmem
  exact ⟨insn, by rw [h.address i insn hi]; exact hi, hdefines⟩

theorem Fresh.lt_of_addressOf? {unit : SourceUnit} (h : unit.Fresh) {label : String} {a : Nat}
    (ha : unit.addressOf? label = some a) : a < unit.instructions.length := by
  obtain ⟨insn, hinsn, _⟩ := h.getElem?_addressOf? ha
  exact (List.getElem?_eq_some_iff.mp hinsn).1

/-! ## The flow of control -/

/-- Where control goes on after a branch at `a` that is not taken: behind its delay slot, if the
unit does not end before. -/
def afterBranch (unit : SourceUnit) (a : Nat) (insn : Instruction) : Nat :=
  a + 1 + if insn.delaySlot && a + 1 < unit.instructions.length then 1 else 0

/-- The entry at `a` can be run from a routine label. -/
inductive Reached (unit : SourceUnit) (routines : RoutineLabels) : Nat → Prop where
  | entrance {label : String} {a : Nat} (hlabel : label ∈ routines)
      (ha : unit.addressOf? label = some a) : Reached unit routines a
  | next {a : Nat} {insn : Instruction} (h : Reached unit routines a)
      (hinsn : unit.instructions[a]? = some insn) (hbranch : insn.isBranch = false)
      (hlt : a + 1 < unit.instructions.length) : Reached unit routines (a + 1)
  | call {a target : Nat} {insn : Instruction} {label : String} (h : Reached unit routines a)
      (hinsn : unit.instructions[a]? = some insn) (hcall : insn.isCall = true)
      (hlabel : insn.destination.label? = some label) (ha : unit.addressOf? label = some target) :
      Reached unit routines target
  | jump {a target : Nat} {insn : Instruction} {label : String} (h : Reached unit routines a)
      (hinsn : unit.instructions[a]? = some insn) (hbranch : insn.isBranch = true)
      (hlabel : insn.destination.label? = some label) (hlocal : label ∉ routines)
      (ha : unit.addressOf? label = some target) : Reached unit routines target
  | fall {a : Nat} {insn : Instruction} (h : Reached unit routines a)
      (hinsn : unit.instructions[a]? = some insn) (hbranch : insn.isBranch = true)
      (hfalls : insn.isUnconditional = false)
      (hlt : unit.afterBranch a insn < unit.instructions.length) :
      Reached unit routines (unit.afterBranch a insn)

/-- The entry at `a` is the delay slot of a branch that can be run. -/
def Slot (unit : SourceUnit) (routines : RoutineLabels) (a : Nat) : Prop :=
  ∃ b insn, unit.Reached routines b ∧ unit.instructions[b]? = some insn ∧
    insn.isBranch = true ∧ insn.delaySlot = true ∧ a = b + 1 ∧ a < unit.instructions.length

section Reached

variable {unit : SourceUnit} {routines : RoutineLabels} {a : Nat}

theorem Reached.lt (hfresh : unit.Fresh) (h : unit.Reached routines a) :
    a < unit.instructions.length := by
  cases h with
  | entrance _ ha => exact hfresh.lt_of_addressOf? ha
  | next _ _ _ hlt => exact hlt
  | call _ _ _ _ ha => exact hfresh.lt_of_addressOf? ha
  | jump _ _ _ _ _ ha => exact hfresh.lt_of_addressOf? ha
  | fall _ _ _ _ hlt => exact hlt

/-- The entry at a label is the label itself, and no branch. -/
theorem Fresh.isBranch_of_addressOf? (hfresh : unit.Fresh) {label : String} {insn : Instruction}
    (ha : unit.addressOf? label = some a) (hinsn : unit.instructions[a]? = some insn) :
    insn.isBranch = false := by
  obtain ⟨other, hother, hdefines⟩ := hfresh.getElem?_addressOf? ha
  obtain rfl : other = insn := Option.some.inj (hother.symm.trans hinsn)
  refine Instruction.isBranch_of_isLabel ?_ (hfresh.natural a other hother)
  exact (Bool.and_eq_true_iff.mp hdefines).1

/-- Control comes to a delay slot at a label of the slot. The other way is from a branch, which is
in the delay slot of the branch before it. -/
theorem Slot.reached_cases (hslot : unit.Slot routines a) (h : unit.Reached routines a) :
    (∃ label, unit.addressOf? label = some a) ∨
    ∃ b branch, a = b + 1 ∧ unit.Slot routines b ∧ unit.Reached routines b ∧
      unit.instructions[b]? = some branch ∧ branch.isBranch = true := by
  obtain ⟨b, branch, hb, hbranch, hisbranch, hdelay, rfl, hlt⟩ := hslot
  generalize ha : b + 1 = a at h
  cases h with
  | entrance _ haddress => exact .inl ⟨_, haddress⟩
  | call _ _ _ _ haddress => exact .inl ⟨_, haddress⟩
  | jump _ _ _ _ _ haddress => exact .inl ⟨_, haddress⟩
  | @next c other _ hother hother' _ =>
    -- from the branch itself control does not come, since it does not end at a plain entry
    obtain rfl : b = c := by omega
    obtain rfl : branch = other := Option.some.inj (hbranch.symm.trans hother)
    simp [hisbranch] at hother'
  | @fall c other hc hother hother' _ _ =>
    unfold afterBranch at ha ⊢
    split at ha
    next hslot =>
      -- then `b` is the delay slot of `c`, and a branch
      obtain rfl : b = c + 1 := by omega
      rw [if_pos hslot]
      simp only [Bool.and_eq_true, decide_eq_true_eq] at hslot
      exact .inr ⟨c + 1, branch, rfl, ⟨c, other, hc, hother, hother', hslot.1, rfl, hslot.2⟩, hb,
        hbranch, hisbranch⟩
    next hslot =>
      obtain rfl : b = c := by omega
      obtain rfl : branch = other := Option.some.inj (hbranch.symm.trans hother)
      simp [hdelay, hlt] at hslot

/-- The delay slot of a branch that can be run is no branch, if it can be run on its own. Control
would come to it from a branch in the delay slot before. -/
theorem isBranch_of_slot_of_reached (hfresh : unit.Fresh) {insn : Instruction}
    (hslot : unit.Slot routines a) (h : unit.Reached routines a)
    (hinsn : unit.instructions[a]? = some insn) : insn.isBranch = false := by
  induction a using Nat.strongRecOn generalizing insn with
  | ind a ih =>
    rcases hslot.reached_cases h with
      ⟨label, haddress⟩ | ⟨b, branch, rfl, hbefore, hb, hbranch, hisbranch⟩
    · exact hfresh.isBranch_of_addressOf? haddress hinsn
    · -- there is no first branch in such a row of slots
      have hno := ih b (Nat.lt_succ_self b) hbefore hb hbranch
      cases hno.symm.trans hisbranch

end Reached

end SourceUnit

end RamOverlay
