import Mathlib.Data.List.TakeWhile
import RamOverlay.Proofs.Code.OtherCalls
import RamOverlay.Proofs.Exit.Reading

/-!
# The operands of what was read

* **`Instruction.IsRead`**: the operands of an entry are plain, and it is a jump by class only if it
  is a call.
* **`Instruction.plain_of_destination`**: then its label is plain.
* **`SourceUnit.isRead_parse`**: the entries of a text that was read are of this kind.
* **`isRead_tail_cutBlocks`**, **`Corrected.isRead_tail`**: and so are the tails of the blocks that
  are cut out of them, and still after linking and the correction of calls.
-/

namespace RamOverlay

/-! ## Parts of a text -/

namespace Text

variable {c sep : Char} {cs piece : List Char}

theorem mem_of_mem_trimRight (h : c ∈ trimRight cs) : c ∈ cs := by
  induction cs with
  | nil => exact h
  | cons d cs ih =>
    rw [trimRight_cons_eq] at h
    split at h
    · split at h
      · cases h
      · rw [List.mem_singleton.1 h]
        exact List.mem_cons_self
    · rcases List.mem_cons.1 h with rfl | h
      · exact List.mem_cons_self
      · exact List.mem_cons_of_mem d (ih h)

theorem mem_of_mem_trim (h : c ∈ trim cs) : c ∈ cs :=
  (List.dropWhile_sublist _).mem (mem_of_mem_trimRight h)

theorem mem_of_mem_pieces (hpiece : piece ∈ pieces sep cs) (hc : c ∈ piece) : c ∈ cs := by
  unfold pieces at hpiece
  induction cs generalizing piece with
  | nil =>
    rw [List.mem_singleton.1 hpiece] at hc
    exact hc
  | cons d cs ih =>
    rw [piecesBy] at hpiece
    split at hpiece
    · rcases List.mem_cons.1 hpiece with rfl | hpiece
      · cases hc
      · exact List.mem_cons_of_mem d (ih hpiece hc)
    · split at hpiece
      next hnil => exact absurd hnil (piecesBy_ne_nil _ cs)
      next first rest hsome =>
        rw [hsome] at ih
        rcases List.mem_cons.1 hpiece with rfl | hpiece
        · -- the character joins the first piece of the rest
          rcases List.mem_cons.1 hc with rfl | hc
          · exact List.mem_cons_self
          · exact List.mem_cons_of_mem d (ih List.mem_cons_self hc)
        · exact List.mem_cons_of_mem d (ih (List.mem_cons_of_mem first hpiece) hc)

theorem mem_of_mem_dropReturn (h : c ∈ dropReturn cs) : c ∈ cs := by
  fun_induction dropReturn cs with
  | case1 => exact h
  | case2 => cases h
  | case3 => exact h
  | case4 d cs _ ih =>
    rcases List.mem_cons.1 h with rfl | h
    · exact List.mem_cons_self
    · exact List.mem_cons_of_mem d (ih h)

/-- A line holds no newline. -/
theorem not_newline_of_mem_lines {text line : List Char} (h : line ∈ lines text) :
    '\n' ∉ line := by
  -- a line is a piece between newlines, with a carriage return at most taken off
  have hpieces : ∀ {parts : List (List Char)} {line}, (∀ piece ∈ parts, '\n' ∉ piece) →
      line ∈ linesOfPieces parts → '\n' ∉ line := by
    intro parts
    fun_induction linesOfPieces parts with
    | case1 => exact fun _ h => absurd h List.not_mem_nil
    | case2 => exact fun _ h => absurd h List.not_mem_nil
    | case3 last =>
      intro _ hparts h
      rw [List.mem_singleton.1 h]
      exact hparts last List.mem_cons_self
    | case4 piece rest _ ih =>
      intro _ hparts h
      rcases List.mem_cons.1 h with rfl | h
      · exact fun hmem => hparts piece List.mem_cons_self (mem_of_mem_dropReturn hmem)
      · exact ih (fun other hother => hparts other (List.mem_cons_of_mem piece hother)) h
  refine hpieces (fun piece hpiece hmem => ?_) h
  have hno := not_sep_of_mem_piecesBy _ _ piece hpiece '\n' hmem
  exact absurd hno (by decide)

end Text

namespace Source

variable {s : String}

theorem Plain.strip (h : Plain s) : Plain (Text.strip s) := fun c hc => by
  rw [Text.toList_strip] at hc
  exact h c (Text.mem_of_mem_trim hc)

theorem Plain.of_mem_piecesOf {sep : Char} {piece : String} (h : Plain s)
    (hpiece : piece ∈ Text.piecesOf sep s) : Plain piece := by
  obtain ⟨cs, hcs, rfl⟩ := List.mem_map.1 hpiece
  intro c hc
  rw [String.toList_ofList] at hc
  exact h c (Text.mem_of_mem_pieces hcs hc)

/-- Ignored lines and labels apart, a line is what the text without its blanks says. -/
theorem Line.classify_cases (cs : List Char) :
    Line.classify cs = .ignored ∨ (∃ name rest, Line.classify cs = .label name rest) ∨
      Line.classify cs = Line.ofStatement (Text.trim cs) := by
  unfold Line.classify
  dsimp only
  split
  · exact .inl rfl
  · split
    · split
      · split <;> simp
      · exact .inr (.inl ⟨_, _, rfl⟩)
    · split <;> simp

/-- The operands of a line are characters of the line, without a comment. -/
theorem mem_of_classify {cs operator operands : List Char}
    (h : Line.classify cs = .instruction operator operands) :
    ∀ c ∈ operands, c ∈ cs ∧ c ≠ ';' ∧ c ≠ '@' := by
  -- labels and ignored lines are no instructions
  have hstatement : Line.ofStatement (Text.trim cs) = .instruction operator operands := by
    obtain heq | ⟨name, rest, heq⟩ | heq := Line.classify_cases cs
    · cases heq.symm.trans h
    · cases heq.symm.trans h
    · exact heq.symm.trans h
  unfold Line.ofStatement at hstatement
  split at hstatement
  · cases hstatement
  · obtain ⟨-, rfl⟩ := Line.instruction.inj hstatement
    intro c hc
    have hc := Text.mem_of_mem_trim hc
    -- the operands end before the first comment sign
    have hmark := List.mem_takeWhile_imp hc
    have hmem := (List.dropWhile_sublist _).mem ((List.takeWhile_sublist _).mem hc)
    exact ⟨Text.mem_of_mem_trim hmem, by simpa using hmark⟩

end Source

/-! ## Entries -/

/-- An entry as it is read, perhaps reclassified: its operands are plain, and only a call is used as
a jump. -/
structure Instruction.IsRead (insn : Instruction) : Prop where
  plain : Source.Plain insn.operands
  suppressed : insn.callClass = .suppressed → insn.isNaturalCall = true

namespace Instruction

variable {insn : Instruction}

theorem plain_secondOperand? {operand : String} (hplain : Source.Plain insn.operands)
    (h : insn.secondOperand? = some operand) : Source.Plain operand := by
  unfold secondOperand? at h
  split at h
  next first second rest hpieces =>
    obtain ⟨h, -⟩ := Option.filter_eq_some_iff.1 h
    obtain rfl := Option.some.inj h
    have hsecond : second ∈ Text.piecesOf ',' insn.operands := by
      rw [hpieces]
      exact List.mem_cons_of_mem first List.mem_cons_self
    exact (hplain.of_mem_piecesOf hsecond).strip
  next => cases h

/-- The label that an entry goes to is plain if its operands are. -/
theorem plain_of_destination {label : String} (hplain : Source.Plain insn.operands)
    (h : insn.destination = .label label) : Source.Plain label := by
  unfold destination at h
  split at h
  · cases h
  · split at h
    · split at h
      -- the label of a compare-and-branch is one of the operands, any other is all of them
      next target htarget =>
        obtain rfl := Destination.label.inj h
        exact plain_secondOperand? hplain htarget
      next => cases h
    · dsimp only at h
      split at h
      · cases h
      · obtain rfl := Destination.label.inj h
        exact hplain.strip

end Instruction

namespace SourceUnit

variable {unit : SourceUnit} {routines : RoutineLabels} {insn : Instruction}

/-- An entry that the parser gives is read as it was written. -/
theorem isRead_of_entry? {line address : Nat} {cs : List Char} (hline : '\n' ∉ cs)
    (h : entry? line address cs = some insn) : insn.IsRead := by
  unfold entry? at h
  split at h
  next name followed hclassify =>
    obtain rfl := Option.some.inj h
    exact ⟨fun c hc => absurd hc List.not_mem_nil, fun h => nomatch h⟩
  next operator operands hclassify =>
    obtain rfl := Option.some.inj h
    refine ⟨fun c hc => ?_, fun h => nomatch h⟩
    rw [String.toList_ofList] at hc
    obtain ⟨hmem, hmarks⟩ := Source.mem_of_classify hclassify c hc
    -- a newline among the operands would be one of the line
    refine ⟨?_, hmarks⟩
    rintro rfl
    exact hline hmem
  next => cases h
  next => cases h

/-- So are all entries of a text, since its lines have no newline in them. -/
theorem isRead_of_mem_entriesFrom {line address : Nat} {lines : List (List Char)}
    (hlines : ∀ cs ∈ lines, '\n' ∉ cs) (h : insn ∈ entriesFrom line address lines) :
    insn.IsRead := by
  induction lines generalizing line address with
  | nil => cases h
  | cons cs lines ih =>
    have hrest : ∀ cs' ∈ lines, '\n' ∉ cs' := fun cs' hcs' =>
      hlines cs' (List.mem_cons_of_mem cs hcs')
    rw [entriesFrom] at h
    cases hentry : entry? line address cs with
    | none =>
      simp only [hentry] at h
      exact ih hrest h
    | some first =>
      simp only [hentry] at h
      -- the entry of the first line, or one of a later line
      rcases List.mem_cons.mp h with rfl | h
      · exact isRead_of_entry? (hlines cs List.mem_cons_self) hentry
      · exact ih hrest h

theorem isRead_parse (name text : String) :
    ∀ insn ∈ (parse name text).value.instructions, insn.IsRead :=
  fun _ => isRead_of_mem_entriesFrom fun _ => Text.not_newline_of_mem_lines

end SourceUnit

/-! ## Blocks -/

section Blocks

variable {unit : SourceUnit} {routines : RoutineLabels} {cut block : Block} {id : BlockId}

theorem isRead_tail_cutBlocks (hread : ∀ insn ∈ unit.instructions, insn.IsRead)
    (hfresh : unit.Fresh) (hcut : cut ∈ cutBlocks unit routines) : cut.tail.IsRead := by
  have hget := (cutOut_cutBlocks hfresh hcut).getElem?_eq cut.getElem?_tailIndex
  exact hread _ (List.mem_of_getElem? hget)

/-- Linking and correcting change the class of a tail, but not its text. -/
theorem Corrected.isRead_tail (h : Corrected unit routines id cut block)
    (hnatural : cut.tail.callClass = .natural) (hread : cut.tail.IsRead) : block.tail.IsRead := by
  cases h with
  | jump hcall =>
    rw [cut.tail_jumpTo]
    exact ⟨hread.plain, fun _ => (Bool.and_eq_true_iff.1 hcall).1⟩
  | kept =>
    rcases tail_linkedBlock (cutBlocks unit routines) id hnatural with heq | ⟨_, heq⟩
    · rw [heq]
      exact hread
    · rw [heq]
      exact ⟨hread.plain, fun h => nomatch h⟩

end Blocks

end RamOverlay
