import Mathlib.Data.List.Forall2
import RamOverlay.Proofs.Text.Records
import RamOverlay.Size.Cost

/-!
# Registers of a list

What the entries of a register list stand for, and when each of them is counted. The count reads the
ends of a range as `r` and a number, so a range with an end such as `sl` or `lr` counts as one
register.

* **`Written.registerEntryCount_trim`**: what an entry counts, as it is written.
* **`registerCount_of_lists`**: the count of a list is the total over its entries.
* **`countsRegisters_iff`**: when the count and the cycles follow from the registers of the list.
-/

namespace RamOverlay

/-! ## Names of registers -/

namespace Thumb2

/-- How many of the names in the table are numbers behind an `r`; they come first. -/
def numberedNames : Nat := 16

/-- A name of the table of registers. -/
structure RegisterName where
  text : String
  listed : text ∈ registers

namespace RegisterName

variable (name : RegisterName)

def place : Nat := registers.idxOf name.text

/-- The name is one of those behind the numbered names. -/
def IsAlias : Prop := numberedNames ≤ name.place

instance : Decidable name.IsAlias := inferInstanceAs (Decidable (_ ≤ _))

/-- The number of the register; the names `sl`, `fp`, `ip`, `sp`, `lr` and `pc` stand for those
from ten on. -/
def number : Nat := if name.IsAlias then name.place - 6 else name.place

theorem number_lt : name.number < 16 := by
  have hplace : name.place < 22 := List.idxOf_lt_length_of_mem name.listed
  unfold number
  split
  next => omega
  next hnumbered => exact Nat.lt_of_not_le hnumbered

theorem isAlphanum_of_mem : ∀ c ∈ name.text.toList, c.isAlphanum = true := by
  have hall : ∀ text ∈ registers, text.toList.all Char.isAlphanum = true := by decide +kernel
  exact List.all_eq_true.1 (hall name.text name.listed)

theorem toList_ne_nil : name.text.toList ≠ [] := by
  have hall : ∀ text ∈ registers, text.toList ≠ [] := by decide +kernel
  exact hall name.text name.listed

/-- A register is known by its number, and not by another name. -/
theorem registerNumber?_toList :
    registerNumber? name.text.toList = if name.IsAlias then none else some name.number := by
  have hall : ∀ text ∈ registers, registerNumber? text.toList =
      if numberedNames ≤ registers.idxOf text then none else some (registers.idxOf text) := by
    decide +kernel
  rw [hall name.text name.listed]
  show (if name.IsAlias then none else some name.place) = _
  unfold number
  split <;> rfl

/-- Blanks around a name make no difference to its number. -/
theorem registerNumber?_of_trim {cs : List Char} (h : Text.trim cs = name.text.toList) :
    registerNumber? cs = if name.IsAlias then none else some name.number := by
  rw [← name.registerNumber?_toList, ← h]
  unfold registerNumber?
  rw [Text.trim_trim]

end RegisterName

end Thumb2

open Thumb2 (RegisterName Width CycleClass)

/-! ## Entries -/

/-- An entry of a register list. -/
inductive RegisterEntry where
  | one (name : RegisterName)
  /-- The registers from the first to the last. -/
  | range (first last : RegisterName)

namespace RegisterEntry

/-- The numbers of the registers that the entry stands for. -/
def registers : RegisterEntry → List Nat
  | one name => [name.number]
  | range first last => List.range' first.number (last.number + 1 - first.number)

/-- The text is the entry, with blanks around the names. -/
def Written (text : List Char) : RegisterEntry → Prop
  | one name => Text.trim text = name.text.toList
  | range first last => ∃ low high, text = low ++ '-' :: high ∧
      Text.trim low = first.text.toList ∧ Text.trim high = last.text.toList

/-- A range does not run backwards. -/
def IsAscending : RegisterEntry → Prop
  | one _ => True
  | range first last => first.number ≤ last.number

/-- The entry is a range of several registers, and one of its ends is not written as a number. -/
def HidesRegisters : RegisterEntry → Prop
  | one _ => False
  | range first last => (first.IsAlias ∨ last.IsAlias) ∧ first.number < last.number

instance : DecidablePred HidesRegisters
  | one _ => .isFalse id
  | range .. => inferInstanceAs (Decidable (_ ∧ _))

variable {text : List Char} {entry : RegisterEntry}

/-- What an entry counts. -/
def counted (entry : RegisterEntry) : Nat :=
  if entry.HidesRegisters then 1 else entry.registers.length

/-- What is counted once only is more than one register. -/
theorem one_lt_of_hidesRegisters (h : entry.HidesRegisters) : 1 < entry.registers.length := by
  cases entry with
  | one name => exact h.elim
  | range first last =>
    have hlt := h.2
    show 1 < (List.range' first.number (last.number + 1 - first.number)).length
    rw [List.length_range']
    omega

/-- No entry is counted too high. -/
theorem counted_le (entry : RegisterEntry) : entry.counted ≤ entry.registers.length := by
  unfold counted
  split
  next h => exact Nat.le_of_lt (one_lt_of_hidesRegisters h)
  next => exact Nat.le_refl _

/-- An entry is counted right unless it hides registers. -/
theorem counted_eq_iff (entry : RegisterEntry) :
    entry.counted = entry.registers.length ↔ ¬ entry.HidesRegisters := by
  unfold counted
  split
  next h => exact iff_of_false (Nat.ne_of_lt (one_lt_of_hidesRegisters h)) (not_not_intro h)
  next h => exact iff_of_true rfl h

/-- Behind the blanks are letters and digits, and the dash of a range. -/
theorem Written.isAlphanum_or_dash (h : entry.Written text) {c : Char} (hmem : c ∈ text)
    (hc : Text.isBlank c = false) : c.isAlphanum = true ∨ c = '-' := by
  cases entry with
  | one name =>
    have htrim := Text.mem_trim hmem hc
    rw [show Text.trim text = _ from h] at htrim
    exact .inl (name.isAlphanum_of_mem c htrim)
  | range first last =>
    obtain ⟨low, high, rfl, hlow, hhigh⟩ := h
    rcases List.mem_append.1 hmem with hmem | hmem
    · exact .inl (first.isAlphanum_of_mem c (hlow ▸ Text.mem_trim hmem hc))
    · rcases List.mem_cons.1 hmem with rfl | hmem
      · exact .inr rfl
      · exact .inl (last.isAlphanum_of_mem c (hhigh ▸ Text.mem_trim hmem hc))

theorem Written.trim_ne_nil (h : entry.Written text) : Text.trim text ≠ [] := by
  cases entry with
  | one name =>
    rw [show Text.trim text = _ from h]
    exact name.toList_ne_nil
  | range first last =>
    obtain ⟨low, high, rfl, -, -⟩ := h
    rw [Text.trim_append_cons (by decide)]
    simp

theorem registerEntryCount_of_no_dash {text : List Char} (h : '-' ∉ text) :
    registerEntryCount text = 1 := by
  unfold registerEntryCount
  rw [Text.cutFirst_of_not_mem h]

/-- A range is counted by the numbers at its ends, unless an end is an alias. -/
theorem registerEntryCount_range {first last : RegisterName} {low high : List Char}
    (hlow : Text.trim low = first.text.toList) (hhigh : Text.trim high = last.text.toList)
    (hle : first.number ≤ last.number) : registerEntryCount (Text.trim (low ++ '-' :: high)) =
      if first.IsAlias ∨ last.IsAlias then 1 else last.number - first.number + 1 := by
  have hlow : Text.trim (Text.trimLeft low) = first.text.toList := by rwa [Text.trim_trimLeft]
  have hhigh : Text.trim (Text.trimRight high) = last.text.toList := by rwa [Text.trim_trimRight]
  -- a register has no dash in its name, so the range is cut at its own
  have hdash : '-' ∉ Text.trimLeft low := by
    intro hmem
    have htrim := Text.mem_trim hmem (by decide)
    rw [hlow] at htrim
    exact absurd (first.isAlphanum_of_mem _ htrim) (by decide)
  unfold registerEntryCount
  rw [Text.trim_append_cons (by decide), Text.cutFirst_append_cons hdash]
  dsimp only
  rw [first.registerNumber?_of_trim hlow, last.registerNumber?_of_trim hhigh]
  -- there are sixteen registers, so nothing wraps around
  have hword : wordSum (last.number - first.number) 1 = last.number - first.number + 1 := by
    have hlast := last.number_lt
    refine wordSum_of_lt ?_
    have hlimit : 16 < Text.wordLimit := by decide
    omega
  by_cases hfirst : first.IsAlias <;> by_cases hlast : last.IsAlias <;>
    simp [hfirst, hlast, hle, hword]

/-- An entry counts as many registers as it stands for, or one if it hides some. -/
theorem Written.registerEntryCount_trim (h : entry.Written text) (hascending : entry.IsAscending) :
    registerEntryCount (Text.trim text) = entry.counted := by
  cases entry with
  | one name =>
    have hdash : '-' ∉ Text.trim text := by
      rw [show Text.trim text = _ from h]
      exact fun hmem => absurd (name.isAlphanum_of_mem _ hmem) (by decide)
    exact registerEntryCount_of_no_dash hdash
  | range first last =>
    obtain ⟨low, high, rfl, hlow, hhigh⟩ := h
    have hle : first.number ≤ last.number := hascending
    have hlength : (range first last).registers.length = last.number + 1 - first.number :=
      List.length_range'
    rw [registerEntryCount_range hlow hhigh hle]
    unfold counted
    rw [hlength]
    split
    next halias =>
      -- with an alias at an end, only a range of one register hides none
      split
      next => rfl
      next hshown =>
        have hnot : ¬ first.number < last.number := fun hlt => hshown ⟨halias, hlt⟩
        omega
    next halias =>
      rw [if_neg fun h : HidesRegisters (range first last) => halias h.1]
      omega

end RegisterEntry

/-! ## Lists -/

variable {operands : String} {texts : List (List Char)} {entries : List RegisterEntry}

/-- The operands hold a list of these entries between their first braces. -/
structure ListsRegisters (operands : String) (entries : List RegisterEntry) : Prop where
  written : ∃ before texts after, '\x7b' ∉ before ∧
    operands.toList = before ++ '\x7b' :: ([','].intercalate texts ++ '\x7d' :: after) ∧
      List.Forall₂ RegisterEntry.Written texts entries
  ascending : ∀ entry ∈ entries, entry.IsAscending

/-- Each piece of a list is the text of an entry. -/
theorem exists_written_of_mem (h : List.Forall₂ RegisterEntry.Written texts entries)
    {text : List Char} (hmem : text ∈ texts) : ∃ entry : RegisterEntry, entry.Written text := by
  induction h with
  | nil => cases hmem
  | @cons first entry texts entries hfirst _ ih =>
    rcases List.mem_cons.1 hmem with rfl | hmem
    · exact ⟨entry, hfirst⟩
    · exact ih hmem

/-- The pieces of a list have nothing in them but letters, digits, dashes and blanks. -/
theorem not_mem_of_written (h : List.Forall₂ RegisterEntry.Written texts entries)
    {text : List Char} (htext : text ∈ texts) {c : Char} (hblank : Text.isBlank c = false)
    (hletter : c.isAlphanum = false) (hdash : c ≠ '-') : c ∉ text := by
  intro hmem
  obtain ⟨entry, hwritten⟩ := exists_written_of_mem h htext
  rcases hwritten.isAlphanum_or_dash hmem hblank with hchar | hchar
  · exact Bool.false_ne_true (hletter.symm.trans hchar)
  · exact hdash hchar

/-- Between the entries are commas. -/
theorem eq_or_mem_of_mem_intercalate {sep c : Char} (h : c ∈ [sep].intercalate texts) :
    c = sep ∨ ∃ text ∈ texts, c ∈ text := by
  induction texts with
  | nil => cases h
  | cons text texts ih =>
    cases texts with
    | nil => exact .inr ⟨text, List.mem_cons_self, by simpa using h⟩
    | cons next texts =>
      rw [List.intercalate_cons_cons, List.mem_append, List.mem_append] at h
      -- the first text, the separator, or what stands behind it
      rcases h with (h | h) | h
      · exact .inr ⟨text, List.mem_cons_self, h⟩
      · exact .inl (List.mem_singleton.1 h)
      · refine (ih h).imp_right ?_
        rintro ⟨other, hother, hc⟩
        exact ⟨other, List.mem_cons_of_mem text hother, hc⟩

/-- The entries between the commas, those apart that are blank. -/
theorem trimmed_pieces_of_written (h : List.Forall₂ RegisterEntry.Written texts entries) :
    ((Text.pieces ',' ([','].intercalate texts)).map Text.trim).filter (· ≠ []) =
      texts.map Text.trim := by
  cases texts with
  | nil => rfl
  | cons text texts =>
    -- no entry has a comma in it
    have hfields : Text.Fields ',' ([','].intercalate (text :: texts)) (text :: texts) := by
      refine ⟨List.cons_ne_nil _ _, fun field hfield => ?_, rfl⟩
      exact not_mem_of_written h hfield (by decide) (by decide) (by decide)
    rw [hfields.pieces_eq, List.filter_eq_self]
    intro field hfield
    obtain ⟨text', htext', rfl⟩ := List.mem_map.1 hfield
    obtain ⟨entry, hwritten⟩ := exists_written_of_mem h htext'
    simpa using hwritten.trim_ne_nil

/-- The count of a list is the sum over its entries. -/
theorem totalOf_registerEntryCount (h : List.Forall₂ RegisterEntry.Written texts entries)
    (hascending : ∀ entry ∈ entries, entry.IsAscending) :
    totalOf registerEntryCount (texts.map Text.trim) = totalOf RegisterEntry.counted entries := by
  induction h with
  | nil => rfl
  | cons hone _ ih =>
    obtain ⟨hfirst, hascending⟩ := List.forall_mem_cons.1 hascending
    rw [List.map_cons, totalOf_cons, totalOf_cons, hone.registerEntryCount_trim hfirst,
      ih hascending]

/-- What is counted between the braces, in a word. -/
theorem registerCount_of_lists (h : ListsRegisters operands entries) :
    registerCount operands = totalOf RegisterEntry.counted entries % Text.wordLimit := by
  obtain ⟨before, texts, after, hbefore, hoperands, hwritten⟩ := h.written
  -- no entry has a brace in it, so the list ends at its own
  have hbrace : ∀ c ∈ [','].intercalate texts, decide (c ≠ '\x7d') = true := by
    intro c hc
    rw [decide_eq_true_eq]
    rintro rfl
    rcases eq_or_mem_of_mem_intercalate hc with heq | ⟨text, htext, hc⟩
    · exact absurd heq (by decide)
    · exact not_mem_of_written hwritten htext (by decide) (by decide) (by decide) hc
  have hlist : ([','].intercalate texts ++ '\x7d' :: after).takeWhile (· ≠ '\x7d') =
      [','].intercalate texts := by
    rw [List.takeWhile_append_of_pos hbrace, List.takeWhile_cons_of_neg (by decide),
      List.append_nil]
  unfold registerCount
  rw [hoperands, Text.cutFirst_append_cons hbefore]
  dsimp only
  rw [hlist, trimmed_pieces_of_written hwritten, totalOf_registerEntryCount hwritten h.ascending]

theorem totalOf_le {α : Type} {f g : α → Nat} (h : ∀ a, f a ≤ g a) (as : List α) :
    totalOf f as ≤ totalOf g as := by
  induction as with
  | nil => exact Nat.le_refl _
  | cons a as ih => exact Nat.add_le_add (h a) ih

/-- Totals of a quantity and a larger one are the same if the quantities are. -/
theorem totalOf_eq_iff {α : Type} {f g : α → Nat} {as : List α} (h : ∀ a, f a ≤ g a) :
    totalOf f as = totalOf g as ↔ ∀ a ∈ as, f a = g a := by
  induction as with
  | nil => exact iff_of_true rfl fun _ h => absurd h List.not_mem_nil
  | cons a as ih =>
    have ha := h a
    have has := totalOf_le h as
    rw [totalOf_cons, totalOf_cons, List.forall_mem_cons]
    refine Iff.trans ?_ (and_congr_right' ih)
    omega

/-! ## Cycles -/

/-- The cycles of a transfer of several registers beside those for the registers. -/
def Thumb2.CycleClass.transferCycles? : CycleClass → Option Nat
  | .multi => some 1
  | .stack => some 2
  | .single | .flush | .double | .triple | .divide => none

/-- The operands are counted as the entries say: their registers are counted, and the cycles of
a transfer of several registers follow from them. -/
structure CountsRegisters (operands : String) (entries : List RegisterEntry) : Prop where
  count : registerCount operands = totalOf (·.registers.length) entries
  cycles : ∀ (insn : Instruction) (size : Nat) (width : Width) (class_ : CycleClass) (lead : Nat),
    insn.operands = operands → Width.ofSize? size = some width →
      width.classOf? insn.strippedOperator = some class_ → class_.transferCycles? = some lead →
        insn.cycles size = .ok (min (lead + totalOf (·.registers.length) entries +
          if insn.isBranch then Thumb2.flushPenalty else 0) Thumb2.maxCycles)

theorem Instruction.isDataWord_of_class {insn : Instruction} {width : Width} {class_ : CycleClass}
    (h : width.classOf? insn.strippedOperator = some class_) : insn.isDataWord = false := by
  rw [Bool.eq_false_iff]
  intro hword
  have hoperator : insn.operator = ".word" := by
    simpa [isDataWord, Thumb2.dataWords] using hword
  have hnone : ∀ width : Width, width.classOf? (Thumb2.stripCondition ".word") = none := by
    intro width
    cases width <;> decide +kernel
  rw [strippedOperator, hoperator, hnone] at h
  cases h

/-- A transfer takes its lead, a cycle for each register that is counted, and the flush if it
branches. -/
theorem Instruction.cycles_of_transferCycles {insn : Instruction} {size lead : Nat} {width : Width}
    {class_ : CycleClass} (hsize : Width.ofSize? size = some width)
    (hclass : width.classOf? insn.strippedOperator = some class_)
    (hlead : class_.transferCycles? = some lead) :
    insn.cycles size = .ok (min (lead + registerCount insn.operands +
      if insn.isBranch then Thumb2.flushPenalty else 0) Thumb2.maxCycles) := by
  have hsome : size ≠ 0 := by
    rintro rfl
    cases hsize
  have hbase : class_.base (registerCount insn.operands) =
      min (lead + registerCount insn.operands) Thumb2.maxCycles := by
    cases class_ <;> cases hlead <;> rw [CycleClass.base, Nat.add_comm]
  have hflush : class_ ≠ .flush := by
    rintro rfl
    cases hlead
  unfold cycles
  rw [if_neg (by simp [hsome, isDataWord_of_class hclass])]
  simp only [hsize, hclass, hbase, hflush, false_or]
  split
  next =>
    -- the cut to the largest count is made twice
    apply congrArg Except.ok
    omega
  next => rw [Nat.add_zero]

/-- The registers of a list are counted, and the cycles of a transfer follow from them, exactly if
no range with an alias at an end hides registers and their number fits a word. -/
theorem countsRegisters_iff (h : ListsRegisters operands entries) :
    CountsRegisters operands entries ↔ (∀ entry ∈ entries, ¬ entry.HidesRegisters) ∧
      totalOf (·.registers.length) entries < Text.wordLimit := by
  have hshown : totalOf RegisterEntry.counted entries = totalOf (·.registers.length) entries ↔
      ∀ entry ∈ entries, ¬ entry.HidesRegisters := by
    rw [totalOf_eq_iff RegisterEntry.counted_le]
    exact forall₂_congr fun entry _ => entry.counted_eq_iff
  have hle := totalOf_le RegisterEntry.counted_le entries
  have hcount : registerCount operands = totalOf (·.registers.length) entries ↔
      (∀ entry ∈ entries, ¬ entry.HidesRegisters) ∧
        totalOf (·.registers.length) entries < Text.wordLimit := by
    rw [registerCount_of_lists h, ← hshown]
    constructor
    · -- what is lost in a word makes the count smaller, and so does what is hidden
      intro heq
      have hless := Nat.mod_le (totalOf RegisterEntry.counted entries) Text.wordLimit
      have hword := Nat.mod_lt (totalOf RegisterEntry.counted entries)
        (by decide : 0 < Text.wordLimit)
      omega
    · rintro ⟨heq, hword⟩
      rw [heq, Nat.mod_eq_of_lt hword]
  refine ⟨fun hcounts => hcount.1 hcounts.count, fun hshown => ⟨hcount.2 hshown, ?_⟩⟩
  rintro insn size width class_ lead rfl hsize hclass hlead
  rw [← hcount.2 hshown]
  exact Instruction.cycles_of_transferCycles hsize hclass hlead

/-! ## A list with a range to a named register -/

/-- The registers from the fourth to the seventh, and the link register. -/
def savedRegisters : List RegisterEntry :=
  [.range ⟨"r4", by decide⟩ ⟨"r7", by decide⟩, .one ⟨"lr", by decide⟩]

/-- Blanks around the entries do not matter. -/
theorem listsRegisters_saved : ListsRegisters "\x7b r4 - r7, lr\x7d" savedRegisters := by
  refine ⟨⟨[], [" r4 - r7".toList, " lr".toList], [], by decide, by decide +kernel, ?_⟩, ?_⟩
  · refine .cons ?_ (.cons ?_ .nil)
    · exact ⟨" r4 ".toList, " r7".toList, by decide, by decide +kernel, by decide +kernel⟩
    · show Text.trim " lr".toList = "lr".toList
      decide +kernel
  · rintro entry (_ | ⟨_, _ | ⟨_, ⟨⟩⟩⟩)
    · show (4 : Nat) ≤ 7
      decide
    · exact trivial

/-- The five registers of this list are counted. -/
theorem countsRegisters_saved : ListsRegisters "\x7b r4 - r7, lr\x7d" savedRegisters ∧
    CountsRegisters "\x7b r4 - r7, lr\x7d" savedRegisters := by
  refine ⟨listsRegisters_saved,
    (countsRegisters_iff listsRegisters_saved).2 ⟨?_, by decide +kernel⟩⟩
  rintro entry (_ | ⟨_, _ | ⟨_, ⟨⟩⟩⟩)
  · rintro ⟨halias, -⟩
    revert halias
    decide +kernel
  · exact id

/-- The seven registers from the fourth to the tenth. -/
def rangeToAlias : RegisterEntry := .range ⟨"r4", by decide⟩ ⟨"sl", by decide⟩

/-- The range to `sl` counts as one register, and the store of seven takes three cycles. -/
theorem not_countsRegisters_rangeToAlias :
    ListsRegisters "\x7br4-sl\x7d" [rangeToAlias] ∧ rangeToAlias.registers.length = 7 ∧
      registerCount "\x7br4-sl\x7d" = 1 ∧
      ({ address := 0, line := 0, operator := "push", operands := "\x7br4-sl\x7d" } :
        Instruction).cycles 4 = .ok 3 ∧
      ¬ CountsRegisters "\x7br4-sl\x7d" [rangeToAlias] := by
  have hone : registerCount "\x7br4-sl\x7d" = 1 := by decide +kernel
  refine ⟨⟨⟨[], ["r4-sl".toList], [], by decide, by decide +kernel, .cons ?_ .nil⟩, ?_⟩, ?_, hone,
    by rfl, fun hcounts => ?_⟩
  · exact ⟨"r4".toList, "sl".toList, by decide, by decide +kernel, by decide +kernel⟩
  · rintro entry (_ | ⟨_, ⟨⟩⟩)
    show (4 : Nat) ≤ 10
    decide
  · decide +kernel
  · have hseven := hcounts.count
    rw [hone] at hseven
    revert hseven
    decide +kernel

end RamOverlay
