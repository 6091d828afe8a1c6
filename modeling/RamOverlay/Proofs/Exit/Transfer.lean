import RamOverlay.Proofs.Exit.Goal

/-!
# Long exits go where the branches went

* **`EditList.apply_eq`**: where the changes to a line stand in the edited text, and
  **`EditList.apply_of_code`**: where a long exit stands.
* **`UnitEdits.instrument_cases`**: what giving a block a long exit does to the edits.
* **`UnitEdits.continuedBy_instrument_iff`**: the edited text, from the line of a tail on, goes
  where a processor goes from the tail, unless this takes an address from a register.
* **`UnitEdits.caller_lost_upperReturn`**: a return that is taken for a jump to a label.
-/

namespace RamOverlay

/-! ## Edited lines -/

/-- A text behind a line stays before the texts that are put there later. -/
theorem LineEdits.apply_append_after (change later : LineEdits) (text line : String) :
    ((change.append { after := [text] }).append later).apply line =
      (change.append { later with after := [] }).apply line ++
        (Text.piecesOf '\n' text ++ cutLines later.after) := by
  simp [apply, append, cutLines, List.append_assoc]

namespace EditList

variable {edits : EditList} {line : Nat}

/-- An edit changes what is done to its own line only. -/
theorem atLine_addAt (change : LineEdits) (other : Nat) :
    (edits.addAt line change).atLine other =
      if line = other then (edits.atLine other).append change else edits.atLine other := by
  unfold atLine addAt
  rw [Keyed.get?_adjust]
  split
  next h => rw [h, Option.getD_some]
  next => rfl

/-- Edits are applied line by line, so the lines may be cut anywhere. -/
theorem applyFrom_append (texts rest : List String) :
    edits.applyFrom line (texts ++ rest) =
      edits.applyFrom line texts ++ edits.applyFrom (line + texts.length) rest := by
  induction texts generalizing line with
  | nil => rfl
  | cons text texts ih =>
    rw [List.cons_append, applyFrom, applyFrom, ih, List.append_assoc, List.length_cons,
      Nat.add_right_comm, Nat.add_assoc]

/-- What stands in the place of a line, between the edited lines before and after it. -/
theorem apply_eq {source : List String} {text : String} (h : source[line]? = some text) :
    edits.apply source = edits.applyFrom 0 (source.take line) ++ ((edits.atLine line).apply text ++
      (edits.applyFrom (line + 1) (source.drop (line + 1)) ++
        ".data" :: cutLines edits.dataTexts)) := by
  obtain ⟨hlt, rfl⟩ := List.getElem?_eq_some_iff.1 h
  have hsource : source = source.take line ++ source[line] :: source.drop (line + 1) := by
    rw [← List.drop_eq_getElem_cons hlt, List.take_append_drop]
  have happly : edits.applyFrom 0 source = edits.applyFrom 0 (source.take line) ++
      ((edits.atLine line).apply source[line] ++
        edits.applyFrom (line + 1) (source.drop (line + 1))) := by
    conv_lhs => rw [hsource]
    rw [applyFrom_append, List.length_take_of_le hlt.le, Nat.zero_add, applyFrom]
  rw [apply, happly, List.append_assoc, List.append_assoc]

/-- The lines of an exit stand behind the line that they are put after, whatever is changed `later`
there. -/
theorem apply_of_code {source : List String} {text register : String} {exit : Exit}
    {change later : LineEdits}
    (hat : edits.atLine line = (change.append { after := [exit.code register line] }).append later)
    (hregister : Source.Plain register) (hexit : exit.IsPlain) (h : source[line]? = some text) :
    ∃ rest, edits.apply source = edits.applyFrom 0 (source.take line) ++
      ((change.append { later with after := [] }).apply text ++
        (exit.lines register line ++ rest)) := by
  refine ⟨cutLines later.after ++ (edits.applyFrom (line + 1) (source.drop (line + 1)) ++
    ".data" :: cutLines edits.dataTexts), ?_⟩
  rw [apply_eq h, hat, LineEdits.apply_append_after, Exit.piecesOf_code hregister hexit,
    List.append_assoc, List.append_assoc]

end EditList

/-! ## Long exits -/

/-- The mark of a block with a long exit, if its tail is on its first line. -/
def Block.tailMark (block : Block) : List String :=
  if block.line = block.tail.line then ["# INSTRUMENTED " ++ Text.decimal block.line] else []

namespace UnitEdits

variable {edits edits' : UnitEdits} {block : Block} {unit register : String} {nextLine : Nat}

/-- A long exit stands behind the tail, a tail that branches is removed, and a label is put before
the next entry if the exit may go there. -/
theorem instrument_cases (h : edits.instrument unit block nextLine register = .ok edits') :
    ∃ exit, block.exit unit = .ok exit ∧
      edits'.main.atLine block.tail.line =
        ((edits.main.atLine block.tail.line).append
          { removed := block.tail.isBranch, before := block.tailMark }).append
            { after := [exit.code register block.tail.line] } ∧
      edits'.labels = if exit.fallsThrough then
          edits.labels.before nextLine (Exit.fallthroughLabel block.tail.line ++ ":")
        else edits.labels := by
  unfold instrument at h
  cases hexit : block.exit unit with
  | error e =>
    rw [hexit] at h
    cases h
  | ok exit =>
    rw [hexit] at h
    obtain rfl := Except.ok.inj h
    refine ⟨exit, rfl, ?_, rfl⟩
    dsimp only
    rw [EditList.before, EditList.atLine_addAt, Block.tailMark]
    -- the tail is removed exactly if it branches
    have hremove : ∀ main : EditList, (if block.tail.isBranch = true then
          main.remove block.tail.line else main).atLine block.tail.line =
        (main.atLine block.tail.line).append { removed := block.tail.isBranch } := by
      intro main
      split
      next hbranch => rw [EditList.remove, EditList.atLine_addAt, if_pos rfl, hbranch]
      next hbranch => simp [LineEdits.append, hbranch]
    rw [hremove, EditList.after, EditList.atLine_addAt, if_pos rfl]
    split <;> simp [LineEdits.append]

/-- Long exits go where the branches went, unless the tail takes an address from a register. A tail
that never falls through gets no label, and every other gets one, before the next entry. A processor
goes somewhere from every other tail that branches, unless what it compares is no register, or what
`bx` names is none. Whatever is changed `later`, the exit stands behind the line of the tail, which
is removed if it branches. Every run starts outside an IT block (`governed` is empty): no assembler
accepts an `ite` behind an open one. A tail with a block comment in its operands is left out, since
the comment is part of its label then. -/
theorem continuedBy_instrument_iff {asm : Thumb2.Assembler} {r : Fin 16} {edited : EditList}
    {later : LineEdits} {source : List String} {text : String}
    (hinstrument : edits.instrument unit block nextLine register = .ok edits')
    (hread : block.tail.IsRead) (huncommented : Source.Uncommented block.tail.operands)
    (hregister : asm.register? register = some r) (hsafe : r ≠ Thumb2.Machine.programCounter)
    (heven : ∀ taken, (asm.addressOf (block.tail.goal taken)).getLsbD 0 = false)
    (hlater : edited.atLine block.tail.line =
      (edits'.main.atLine block.tail.line).append later)
    (hline : source[block.tail.line]? = some text) :
    (edits'.labels = if block.tail.isUnconditional then edits.labels
      else edits.labels.before nextLine (Exit.fallthroughLabel block.tail.line ++ ":")) ∧
    (block.tail.isBranch = true → ¬ block.tail.TakesRegister asm → block.tail.operator ≠ "bx" →
      (block.tail.isCompareBranch = true → ∃ q, asm.register? block.tail.comparedName = some q) →
      ∀ machine, ∃ outcome, asm.outcome? block.tail machine = some outcome) ∧
    ∃ behind,
      edited.apply source = edited.applyFrom 0 (source.take block.tail.line) ++
        ((((edits.main.atLine block.tail.line).append
          { removed := block.tail.isBranch, before := block.tailMark }).append
            { later with after := [] }).apply text ++ behind) ∧
      (block.tail.ContinuedBy asm r behind ↔ ¬ block.tail.TakesRegister asm) := by
  obtain ⟨exit, hexit, hat, hlabels⟩ := instrument_cases hinstrument
  have hleaves := block.leavesBy hexit
  have hplain := hleaves.isPlain hread
  refine ⟨?_, fun hbranch htakes hexchange hcompared machine =>
    hleaves.exists_outcome hread huncommented hbranch hcompared hexchange htakes machine, ?_⟩
  · rw [hlabels, hleaves.fallsThrough_eq hread]
    cases block.tail.isUnconditional <;> rfl
  -- the run ends with a jump, so nothing that stands behind the exit matters
  · obtain ⟨rest, happly⟩ := EditList.apply_of_code (hlater.trans (by rw [hat]))
      (Thumb2.Assembler.plain_of_register hregister) hplain hline
    have hrun : ∀ machine taken,
        exit.goal? asm block.tail.line machine = some (block.tail.goal taken) →
        asm.Reaches r machine (exit.lines register block.tail.line ++ rest)
          (asm.addressOf (block.tail.goal taken)) := fun _ taken hgoal =>
      Thumb2.Assembler.run_exit hregister hsafe hplain hgoal (heven taken)
    refine ⟨exit.lines register block.tail.line ++ rest, happly, ?_, ?_⟩
    · intro hcontinued htakes
      exact hleaves.not_continuedBy hrun huncommented htakes hcontinued
    · exact hleaves.continuedBy hrun hread huncommented

/-- A block that is left if `r3` is not zero. -/
def notZero : Block :=
  { first := { address := 0, line := 0, operator := "cbnz", operands := "r3, .L4" } }

/-- Places of the labels of `notZero`. -/
def notZeroPlaces : Thumb2.Assembler :=
  .ofAddresses fun label => if label = ".L4" then 0x8000200 else 0x8000010

/-- The edits that give `notZero` its long exit. -/
def notZeroEdits : UnitEdits where
  main := ({} : EditList).addAt 0
    ⟨true, ["# INSTRUMENTED 0"], [], [Exit.code (.compare .ne "r3" ".L4") "r5" 0]⟩
  labels := ({} : EditList).before 1 "fallthrough_0:"

/-- The source lines of `notZero` and of the entry behind it. -/
def notZeroLines : List String := ["\tcbnz\tr3, .L4", "\tbx\tlr"]

/-- `notZero` goes to even addresses, whether it is taken or not. -/
theorem addressOf_notZero (taken : Bool) :
    (notZeroPlaces.addressOf (notZero.tail.goal taken)).getLsbD 0 = false := by
  cases taken <;> decide

/-- With seven in all registers the exit of `notZero` goes to its label, with zero to the label that
is put before the entry behind it. -/
theorem continuedBy_instrument_notZero :
    ({} : UnitEdits).instrument "t.s" notZero 1 "r5" = .ok notZeroEdits ∧
      notZero.tail.IsRead ∧ Source.Uncommented notZero.tail.operands ∧
      notZeroPlaces.register? "r5" = some 5 ∧ (5 : Fin 16) ≠ Thumb2.Machine.programCounter ∧
      (∀ taken, (notZeroPlaces.addressOf (notZero.tail.goal taken)).getLsbD 0 = false) ∧
      notZeroEdits.all.atLine notZero.tail.line =
        (notZeroEdits.main.atLine notZero.tail.line).append {} ∧
      notZeroLines[notZero.tail.line]? = some "\tcbnz\tr3, .L4" ∧
      ¬ notZero.tail.TakesRegister notZeroPlaces ∧
      notZeroEdits.labels = ({} : EditList).before 1 "fallthrough_0:" ∧
      ∃ behind, notZeroEdits.all.apply notZeroLines = "# INSTRUMENTED 0" :: behind ∧
        ∀ flags, notZeroPlaces.Reaches 5 ⟨fun _ => 7, flags⟩ behind 0x8000200 ∧
          notZeroPlaces.Reaches 5 ⟨fun _ => 0, flags⟩ behind 0x8000010 := by
  have hinstrument : ({} : UnitEdits).instrument "t.s" notZero 1 "r5" = .ok notZeroEdits := rfl
  have hread : notZero.tail.IsRead := ⟨by decide, fun h => nomatch h⟩
  have huncommented : Source.Uncommented notZero.tail.operands := by decide +kernel
  have hregister : notZeroPlaces.register? "r5" = some 5 := by decide
  have hsafe : (5 : Fin 16) ≠ Thumb2.Machine.programCounter := by decide
  have hlater : notZeroEdits.all.atLine notZero.tail.line =
    (notZeroEdits.main.atLine notZero.tail.line).append {} := rfl
  have hline : notZeroLines[notZero.tail.line]? = some "\tcbnz\tr3, .L4" := rfl
  have hlabel : ¬ notZero.tail.TakesRegister notZeroPlaces := fun h =>
    absurd h.exchanges (by decide)
  obtain ⟨hlabels, -, behind, happly, hiff⟩ := continuedBy_instrument_iff hinstrument hread
    huncommented hregister hsafe addressOf_notZero hlater hline
  have hcontinued := hiff.2 hlabel
  refine ⟨hinstrument, hread, huncommented, hregister, hsafe, addressOf_notZero, hlater, hline,
    hlabel, hlabels, behind, happly, fun flags => ⟨?_, ?_⟩⟩
  · exact hcontinued.removed (by decide) _ (.label ".L4") rfl
  · exact hcontinued.removed (by decide) _ .behind rfl

/-- A block that returns. The name of the register is in capitals, and no register to the table of
the rewriting. -/
def upperReturn : Block :=
  { first := { address := 0, line := 0, operator := "bx", operands := "LR" } }

/-- The edits that give `upperReturn` a long exit. -/
def upperReturnEdits : UnitEdits where
  main := ({} : EditList).addAt 0
    ⟨true, ["# INSTRUMENTED 0"], [], [Exit.code (.always "LR") "r5" 0]⟩

/-- A caller at one place, and a label by the name of the register at another. -/
def upperReturnPlaces : Thumb2.Assembler := .ofAddresses fun _ => 0x8000200

/-- The machine when `upperReturn` is left. -/
def calledMachine : Thumb2.Machine := ⟨fun _ => 0x8000041, ⟨false, false, false, false⟩⟩

/-- `bx LR` goes back to the caller. Its exit goes to a label `LR`. -/
theorem caller_lost_upperReturn :
    ({} : UnitEdits).instrument "t.s" upperReturn 1 "r5" = .ok upperReturnEdits ∧
      upperReturnPlaces.outcome? upperReturn.tail calledMachine = some (.address 0x8000040) ∧
      ∃ behind, upperReturnEdits.all.apply ["\tbx\tLR"] = "# INSTRUMENTED 0" :: behind ∧
        (upperReturnPlaces.run { machine := calledMachine } behind).map (·.2) = some 0x8000200 :=
  ⟨rfl, by decide +kernel, _, rfl, by decide +kernel⟩

end UnitEdits

end RamOverlay
