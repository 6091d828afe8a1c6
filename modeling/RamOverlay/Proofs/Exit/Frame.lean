import RamOverlay.Proofs.Exit.Transfer

/-!
# What a long exit changes

* **`Instruction.LeavesBy.exists_goal`**: from every machine the exit of a tail goes somewhere.
* **`Instruction.LeavesBy.leaves`**: it changes the flags only if it compares a register with zero.
* **`UnitEdits.leaves_instrument`**: what the edited text, from its exit on, leaves as it was.
-/

namespace RamOverlay

namespace Instruction

variable {tail : Instruction} {exit : Exit} {asm : Thumb2.Assembler} {r : Fin 16}
  {machine machine' : Thumb2.Machine}

/-- What is left of a machine behind the exit of a tail: its registers, apart from the one for exits
and the program counter, and its flags. The exit of a compare branch sets the flags to those of
comparing its register with zero. -/
structure Leaves (tail : Instruction) (asm : Thumb2.Assembler) (r : Fin 16)
    (machine machine' : Thumb2.Machine) : Prop where
  registers : ∀ other, other ≠ r → other ≠ Thumb2.Machine.programCounter →
    machine'.registers other = machine.registers other
  flags : tail.isCompareBranch = false → machine'.flags = machine.flags
  compared : ∀ q, tail.isCompareBranch = true → asm.register? tail.comparedName = some q →
    machine'.flags = (machine.compare q 0).flags

/-- From every machine an exit goes where the tail goes if it is taken, or if it is not. -/
theorem LeavesBy.exists_goal (h : tail.LeavesBy exit)
    (hcompared : tail.isCompareBranch = true → ∃ q, asm.register? tail.comparedName = some q)
    (machine : Thumb2.Machine) :
    ∃ taken, exit.goal? asm tail.line machine = some (tail.goal taken) := by
  cases h with
  | @compare label hcompare hlabel =>
    obtain ⟨q, hq⟩ := hcompared hcompare
    -- it is taken if the comparison that the exit makes comes out so
    refine ⟨(if tail.strippedOperator = "cbnz" then Thumb2.Condition.ne else .eq).holds
      (machine.compare q 0).flags, ?_⟩
    rw [goal_of_label hlabel, Exit.goal?, hq]
    rfl
  | always hcompare hunconditional hlabel =>
    refine ⟨true, ?_⟩
    rw [goal_of_label hlabel]
    rfl
  | fallthrough hbranch =>
    refine ⟨false, ?_⟩
    rw [goal_false]
    rfl
  | @conditional condition label hcompare hunconditional hbranch hlabel hcondition =>
    refine ⟨condition.holds machine.flags, ?_⟩
    rw [goal_of_label hlabel]
    rfl

/-- The flags behind an exit are those of a comparison only behind a compare branch. -/
theorem LeavesBy.leaves (h : tail.LeavesBy exit)
    (hregisters : ∀ other, other ≠ r → machine'.registers other = machine.registers other)
    (hflags : machine'.flags = exit.flagsBehind asm machine) :
    tail.Leaves asm r machine machine' := by
  refine ⟨fun other hother _ => hregisters other hother, fun hnot => ?_, fun q hcompare hq => ?_⟩
  · rw [hflags]
    cases h with
    | compare hcompare => exact absurd (hnot.symm.trans hcompare) Bool.false_ne_true
    | always => rfl
    | fallthrough => rfl
    | conditional => rfl
  · rw [hflags]
    cases h with
    | compare => rw [Exit.flagsBehind, hq]
    | always hnot => exact absurd (hnot.symm.trans hcompare) Bool.false_ne_true
    | fallthrough hbranch =>
      -- a compare branch is a branch
      unfold isBranch at hbranch
      rw [hcompare, Bool.or_true] at hbranch
      cases hbranch
    | conditional hnot => exact absurd (hnot.symm.trans hcompare) Bool.false_ne_true

end Instruction

namespace UnitEdits

variable {edits edits' : UnitEdits} {block : Block} {unit register : String} {nextLine : Nat}

/-- A long exit leaves the machine as it was, but for the register given for exits. From every
machine the text behind the line of the tail is run up to a jump; whatever is changed `later`, no
other register differs then. The flags differ only if the tail compares a register with zero, and
are those of this comparison. Every run starts outside an IT block (`governed` is empty). -/
theorem leaves_instrument {asm : Thumb2.Assembler} {r : Fin 16} {edited : EditList}
    {later : LineEdits} {source : List String} {text : String}
    (hinstrument : edits.instrument unit block nextLine register = .ok edits')
    (hread : block.tail.IsRead) (hregister : asm.register? register = some r)
    (hsafe : r ≠ Thumb2.Machine.programCounter)
    (hcompared : block.tail.isCompareBranch = true →
      ∃ q, asm.register? block.tail.comparedName = some q)
    (heven : ∀ taken, (asm.addressOf (block.tail.goal taken)).getLsbD 0 = false)
    (hlater : edited.atLine block.tail.line =
      (edits'.main.atLine block.tail.line).append later)
    (hline : source[block.tail.line]? = some text) :
    ∃ behind,
      edited.apply source = edited.applyFrom 0 (source.take block.tail.line) ++
        ((((edits.main.atLine block.tail.line).append
          { removed := block.tail.isBranch, before := block.tailMark }).append
            { later with after := [] }).apply text ++ behind) ∧
      ∀ machine, ∃ machine' address, asm.run { machine } behind = some (machine', address) ∧
        block.tail.Leaves asm r machine machine' := by
  obtain ⟨exit, hexit, hat, -⟩ := instrument_cases hinstrument
  have hleaves := block.leavesBy hexit
  have hplain := hleaves.isPlain hread
  obtain ⟨rest, happly⟩ := EditList.apply_of_code (hlater.trans (by rw [hat]))
    (Thumb2.Assembler.plain_of_register hregister) hplain hline
  refine ⟨exit.lines register block.tail.line ++ rest, happly, fun machine => ?_⟩
  obtain ⟨taken, hgoal⟩ := hleaves.exists_goal hcompared machine
  obtain ⟨machine', hrun, hregisters, hflags⟩ :=
    Thumb2.Assembler.run_exit_flags hregister hsafe hplain hgoal (heven taken)
  exact ⟨machine', _, hrun, hleaves.leaves hregisters hflags⟩

/-- Behind the exit of `notZero`, only `r5` and the flags may differ. -/
theorem leaves_instrument_notZero :
    ({} : UnitEdits).instrument "t.s" notZero 1 "r5" = .ok notZeroEdits ∧
      notZero.tail.IsRead ∧ notZeroPlaces.register? "r5" = some 5 ∧
      (5 : Fin 16) ≠ Thumb2.Machine.programCounter ∧
      (notZero.tail.isCompareBranch = true →
        ∃ q, notZeroPlaces.register? notZero.tail.comparedName = some q) ∧
      (∀ taken, (notZeroPlaces.addressOf (notZero.tail.goal taken)).getLsbD 0 = false) ∧
      notZeroEdits.all.atLine notZero.tail.line =
        (notZeroEdits.main.atLine notZero.tail.line).append {} ∧
      notZeroLines[notZero.tail.line]? = some "\tcbnz\tr3, .L4" ∧
      ∃ behind, notZeroEdits.all.apply notZeroLines = "# INSTRUMENTED 0" :: behind ∧
        ∀ machine, ∃ machine' address,
          notZeroPlaces.run { machine } behind = some (machine', address) ∧
            (∀ other, other ≠ 5 → other ≠ 15 →
              machine'.registers other = machine.registers other) ∧
            machine'.flags = (machine.compare 3 0).flags := by
  have hinstrument : ({} : UnitEdits).instrument "t.s" notZero 1 "r5" = .ok notZeroEdits := rfl
  have hread : notZero.tail.IsRead := ⟨by decide, fun h => nomatch h⟩
  have hregister : notZeroPlaces.register? "r5" = some 5 := by decide
  have hsafe : (5 : Fin 16) ≠ Thumb2.Machine.programCounter := by decide
  have hthird : notZeroPlaces.register? notZero.tail.comparedName = some 3 := by decide +kernel
  have hlater : notZeroEdits.all.atLine notZero.tail.line =
    (notZeroEdits.main.atLine notZero.tail.line).append {} := rfl
  have hline : notZeroLines[notZero.tail.line]? = some "\tcbnz\tr3, .L4" := rfl
  obtain ⟨behind, happly, hrun⟩ := leaves_instrument hinstrument hread hregister hsafe
    (fun _ => ⟨3, hthird⟩) addressOf_notZero hlater hline
  refine ⟨hinstrument, hread, hregister, hsafe, fun _ => ⟨3, hthird⟩, addressOf_notZero, hlater,
    hline, behind, happly, fun machine => ?_⟩
  obtain ⟨machine', address, hjump, hleaves⟩ := hrun machine
  exact ⟨machine', address, hjump, hleaves.registers, hleaves.compared 3 (by decide) hthird⟩

/-- A compare branch leaves the flags alone. The comparison in its exit sets the carry flag. -/
theorem flags_lost_notZero :
    ({} : UnitEdits).instrument "t.s" notZero 1 "r5" = .ok notZeroEdits ∧
      ∃ behind, notZeroEdits.all.apply notZeroLines = "# INSTRUMENTED 0" :: behind ∧
        (notZeroPlaces.run { machine := ⟨fun _ => 7, ⟨false, false, false, false⟩⟩ } behind).map
          (·.1.flags) = some ⟨false, false, true, false⟩ :=
  ⟨rfl, _, rfl, by decide +kernel⟩

end UnitEdits

end RamOverlay
