import RamOverlay.Source.Unit

/-!
# The entries of lines

What the parser reads on a line, and how the entries of a text follow from it.

* **`exists_entry_of_mem_entriesFrom`**: an entry was read on the line that it tells.
* **`unplaced_entry`**: what is read on a line does not depend on the entries before.
* **`entriesFrom_congr`**: lines with the same entries give the same units.
-/

namespace RamOverlay

/-- The entry without its place among the others. -/
def Instruction.unplaced (insn : Instruction) : Instruction := { insn with address := 0 }

namespace SourceUnit

open Source

variable {line address : Nat} {cs : List Char} {lines : List (List Char)} {insn : Instruction}

theorem line_of_entry_eq_some (h : entry? line address cs = some insn) : insn.line = line := by
  unfold entry? at h
  split at h <;> cases h <;> rfl

/-- A blank line has no entry. -/
theorem entry_nil (line address : Nat) : entry? line address [] = none := rfl

theorem entry_of_ignored (h : Line.classify cs = .ignored) (line address : Nat) :
    entry? line address cs = none := by
  unfold entry?
  rw [h]

/-- The place of an entry is all that depends on the entries before. -/
theorem unplaced_entry (line address address' : Nat) (cs : List Char) :
    ( entry? line address cs).map (·.unplaced) = ( entry? line address' cs).map (·.unplaced) := by
  unfold entry?
  cases Line.classify cs <;> rfl

/-- Each entry is that of its own line. -/
theorem exists_entry_of_mem_entriesFrom (h : insn ∈ entriesFrom line address lines) :
    ∃ (i : Nat) (cs : List Char) (a : Nat), lines[i]? = some cs ∧ insn.line = line + i ∧
      entry? insn.line a cs = some insn := by
  induction lines generalizing line address with
  | nil => cases h
  | cons cs lines ih =>
    -- an entry of the later lines is one line further on
    have hlater : ∀ {line' address'}, line' = line + 1 → insn ∈ entriesFrom line' address' lines →
        ∃ (i : Nat) (cs' : List Char) (a : Nat), (cs :: lines)[i]? = some cs' ∧
          insn.line = line + i ∧ entry? insn.line a cs' = some insn := by
      rintro _ _ rfl hmem
      obtain ⟨i, cs', a, hcs', hline, hentry⟩ := ih hmem
      exact ⟨i + 1, cs', a, hcs', by omega, hentry⟩
    rw [entriesFrom] at h
    cases hentry : entry? line address cs with
    | none =>
      simp only [hentry] at h
      exact hlater rfl h
    | some first =>
      simp only [hentry] at h
      rcases List.mem_cons.1 h with rfl | h
      · have hline := line_of_entry_eq_some hentry
        exact ⟨0, cs, address, rfl, hline, by rwa [hline]⟩
      · exact hlater rfl h

/-- Entries are the same after a change of the lines that keeps the entry of each of them. -/
theorem entriesFrom_congr {f : List Char → List Char}
    (h : ∀ cs ∈ lines, ∀ line address, entry? line address (f cs) = entry? line address cs) :
    entriesFrom line address (lines.map f) = entriesFrom line address lines := by
  induction lines generalizing line address with
  | nil => rfl
  | cons cs lines ih =>
    have hrest : ∀ cs ∈ lines, ∀ line address,
        entry? line address (f cs) = entry? line address cs := fun cs hcs =>
      h cs (List.mem_cons_of_mem _ hcs)
    rw [List.map_cons, entriesFrom, entriesFrom, h cs List.mem_cons_self]
    cases entry? line address cs with
    | none => exact ih hrest
    | some insn => exact congrArg (insn :: ·) (ih hrest)

end SourceUnit

end RamOverlay
