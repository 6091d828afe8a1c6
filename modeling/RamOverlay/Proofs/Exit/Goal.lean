import RamOverlay.Proofs.Exit.Lines
import RamOverlay.Proofs.Exit.Operands
import RamOverlay.Proofs.Exit.Outcome

/-!
# Which exit a tail gets, and where it goes

* **`Instruction.LeavesBy`**: which exit a tail gets; **`Block.leavesBy`**: no other is given.
* **`Instruction.TakesRegister`**: a tail that goes to the address in a register.
* **`Instruction.outcome?_of_isCompareBranch`** and its like: where a processor goes from a tail of
  each kind.
* **`Instruction.LeavesBy.exists_outcome`**: from every other tail it goes somewhere.
* **`Instruction.LeavesBy.goal?_of_outcome?`**: the exit of such a tail goes there too.
* **`Instruction.ContinuedBy`**: lines that go on where a tail goes; **`LeavesBy.continuedBy`** and
  **`LeavesBy.not_continuedBy`**: for which tails the lines of an exit do so.
-/

namespace RamOverlay

/-! ## Tails and their exits -/

namespace Instruction

/-- The operand that a compare branch compares with zero. -/
def comparedName (insn : Instruction) : String :=
  Text.strip (((Text.piecesOf ',' insn.operands).head?).getD "")

variable {tail : Instruction} {exit : Exit}

/-- The exit that a tail gets. -/
inductive LeavesBy (tail : Instruction) : Exit → Prop where
  | compare {label : String} (hcompare : tail.isCompareBranch = true)
      (hlabel : tail.destination = .label label) :
      LeavesBy tail
        (.compare (if tail.strippedOperator = "cbnz" then .ne else .eq) tail.comparedName label)
  | always {label : String} (hcompare : tail.isCompareBranch = false)
      (hunconditional : tail.isUnconditional = true) (hlabel : tail.destination = .label label) :
      LeavesBy tail (.always label)
  | fallthrough (hbranch : tail.isBranch = false) : LeavesBy tail .fallthrough
  | conditional {condition : Thumb2.Condition} {label : String}
      (hcompare : tail.isCompareBranch = false) (hunconditional : tail.isUnconditional = false)
      (hbranch : tail.isBranch = true) (hlabel : tail.destination = .label label)
      (hcondition : Thumb2.Condition.ofBranch? tail.operator = some condition) :
      LeavesBy tail (.conditional condition label)

/-- A branch always goes somewhere. -/
theorem destination_ne_notApplicable (hbranch : tail.isBranch = true) :
    tail.destination ≠ .notApplicable := by
  unfold destination
  rw [if_neg (by simp [hbranch])]
  split
  · split <;> exact Destination.noConfusion
  · dsimp only
    split <;> exact Destination.noConfusion

end Instruction

/-- A block gets the exit of its tail or none. -/
theorem Block.leavesBy {block : Block} {unit : String} {exit : Exit}
    (h : block.exit unit = .ok exit) : block.tail.LeavesBy exit := by
  unfold Block.exit at h
  dsimp only at h
  split at h
  next => cases h
  next hdirect =>
    -- a branch that is not indirect has a label
    have hlabel : block.tail.isBranch = true → ∃ label, block.tail.destination = .label label := by
      intro hbranch
      cases hdestination : block.tail.destination with
      | notApplicable =>
        exact absurd hdestination (Instruction.destination_ne_notApplicable hbranch)
      | indirect => simp [hbranch, hdestination] at hdirect
      | label name => exact ⟨name, rfl⟩
    split at h
    next hcompare =>
      obtain ⟨label, hlabel⟩ := hlabel (by simp [Instruction.isBranch, hcompare])
      obtain rfl := Except.ok.inj h
      rw [hlabel]
      exact .compare hcompare hlabel
    next hcompare =>
      rw [Bool.not_eq_true] at hcompare
      split at h
      next hunconditional =>
        obtain ⟨label, hlabel⟩ := hlabel (Bool.and_eq_true_iff.1 hunconditional).1
        obtain rfl := Except.ok.inj h
        rw [hlabel]
        exact .always hcompare hunconditional hlabel
      next hunconditional =>
        rw [Bool.not_eq_true] at hunconditional
        split at h
        next hbranch =>
          obtain rfl := Except.ok.inj h
          exact .fallthrough (by simpa using hbranch)
        next hbranch =>
          have hbranch : block.tail.isBranch = true := by simpa using hbranch
          obtain ⟨label, hlabel⟩ := hlabel hbranch
          split at h
          next condition hcondition =>
            obtain rfl := Except.ok.inj h
            rw [hlabel]
            exact .conditional hcompare hunconditional hbranch hlabel hcondition
          next => cases h

/-! ## Where a tail goes -/

namespace Thumb2

/-- The mnemonic of a conditional branch is read as the condition that is read off it. -/
theorem branch?_of_conditional {operator : String} {condition : Condition}
    (hoperator : operator ∈ conditionalBranches)
    (hcondition : Condition.ofBranch? operator = some condition) :
    compareTest? operator = none ∧
      branch? operator = some (.label, fun flags => condition.holds flags) := by
  simp only [conditionalBranches, List.mem_cons, List.not_mem_nil, or_false] at hoperator
  obtain rfl | rfl | rfl | rfl | rfl | rfl | rfl | rfl | rfl | rfl | rfl | rfl | rfl | rfl | rfl |
    rfl := hoperator <;> cases hcondition <;> exact ⟨rfl, rfl⟩

end Thumb2

namespace Instruction

variable {tail : Instruction} {exit : Exit} {asm : Thumb2.Assembler} {machine : Thumb2.Machine}
  {label : String}

/-- Where control goes from a tail: to its label if it is taken, otherwise to the next entry, before
which a label stands. -/
def goal (tail : Instruction) (taken : Bool) : String :=
  match tail.destination, taken with
  | .label name, true => name
  | _, _ => Exit.fallthroughLabel tail.line

/-- A tail with a label goes there if it is taken, and behind the block otherwise. -/
theorem goal_of_label (hlabel : tail.destination = .label label) (taken : Bool) :
    tail.goal taken = if taken then label else Exit.fallthroughLabel tail.line := by
  unfold goal
  rw [hlabel]
  cases taken <;> rfl

theorem goal_false (tail : Instruction) : tail.goal false = Exit.fallthroughLabel tail.line := by
  unfold goal
  split
  next h => cases h
  next => rfl

theorem operator_of_isCompareBranch (h : tail.isCompareBranch = true) :
    tail.operator = "cbz" ∨ tail.operator = "cbnz" := by
  simpa [isCompareBranch, Thumb2.compareBranches] using h

/-- A compare branch that is not used as a jump may fall through. -/
theorem isUnconditional_of_isCompareBranch (hread : tail.IsRead)
    (h : tail.isCompareBranch = true) : tail.isUnconditional = false := by
  have hclass : (tail.callClass == .suppressed) = false := by
    refine beq_eq_false_iff_ne.2 fun hsuppressed => ?_
    have hcall := hread.suppressed hsuppressed
    rcases operator_of_isCompareBranch h with heq | heq <;>
      rw [isNaturalCall, heq] at hcall <;> exact absurd hcall (by decide)
  unfold isUnconditional neverFallsThrough loadsPc writesPc isTableBranch
  rw [hclass]
  rcases operator_of_isCompareBranch h with heq | heq <;>
    simp [heq, Thumb2.unconditionalBranches, Thumb2.multiLoadStems, Thumb2.pcWriters,
      Thumb2.tableBranches, Text.startsWith]

/-- The label of a jump: it is a branch or a call that is used as one. -/
theorem operator_of_isUnconditional (hread : tail.IsRead) (h : tail.isUnconditional = true)
    (hcompare : tail.isCompareBranch = false) (hlabel : tail.destination = .label label) :
    tail.operator ∈ Thumb2.unconditionalBranches ∨
      tail.isNaturalCall = true ∧ tail.callClass = .suppressed := by
  obtain ⟨hbranch, hnever⟩ := Bool.and_eq_true_iff.1 h
  -- a write of the program counter has no label
  have hindirect : (tail.loadsPc || tail.writesPc || tail.isTableBranch) = false := by
    rw [Bool.eq_false_iff]
    intro hwrites
    unfold destination at hlabel
    simp only [Bool.or_eq_true] at hwrites
    obtain (hwrites | hwrites) | hwrites := hwrites <;> simp [hbranch, hcompare, hwrites] at hlabel
  simp only [Bool.or_eq_false_iff] at hindirect
  unfold neverFallsThrough at hnever
  rw [hindirect.1.1, hindirect.1.2, hindirect.2] at hnever
  simp only [Bool.or_false, Bool.or_eq_true, beq_iff_eq, List.contains_iff_mem] at hnever
  exact hnever.symm.imp_right fun hclass => ⟨hread.suppressed hclass, hclass⟩

/-- A branch that may fall through and compares nothing is one of the conditional branches of the
table. -/
theorem operator_of_conditional (hbranch : tail.isBranch = true)
    (hunconditional : tail.isUnconditional = false) (hcompare : tail.isCompareBranch = false) :
    tail.operator ∈ Thumb2.conditionalBranches := by
  have hnever : tail.neverFallsThrough = false := by
    unfold isUnconditional at hunconditional
    rwa [hbranch, Bool.true_and] at hunconditional
  unfold isBranch at hbranch
  simpa [hnever, hcompare] using hbranch

/-- A tail that goes to the address in a register. -/
structure TakesRegister (tail : Instruction) (asm : Thumb2.Assembler) : Prop where
  branches : tail.isBranch = true
  exchanges : tail.operator = "bx" ∨ tail.operator = "blx"
  register : (asm.register? (Text.strip tail.operands)).isSome = true

/-- The label of a compare-and-branch stands behind its first comma. -/
theorem label_of_secondOperand? {label : String} (hlabel : tail.secondOperand? = some label) :
    ∃ first second rest, Text.piecesOf ',' tail.operands = first :: second :: rest ∧
      Text.strip second = label := by
  unfold secondOperand? at hlabel
  split at hlabel
  next first second rest hpieces =>
    exact ⟨first, second, rest, hpieces, Option.some.inj (Option.filter_eq_some_iff.1 hlabel).1⟩
  next => cases hlabel

/-- The label of a branch that compares no register is its whole operand. -/
theorem label_eq_strip (hcompare : tail.isCompareBranch = false)
    (hlabel : tail.destination = .label label) : Text.strip tail.operands = label := by
  -- all other ways to have a destination give none, or an address
  unfold destination at hlabel
  rw [hcompare] at hlabel
  split at hlabel
  next => cases hlabel
  next =>
    dsimp only at hlabel
    split at hlabel
    next h => cases h
    next =>
      split at hlabel
      next => cases hlabel
      next => exact Destination.label.inj hlabel

/-- A compare branch goes to its label if the condition of its exit holds behind a comparison of its
register with zero. -/
theorem outcome?_of_isCompareBranch (h : tail.isCompareBranch = true)
    (huncommented : Source.Uncommented tail.operands) (hlabel : tail.destination = .label label) :
    asm.outcome? tail machine = (asm.register? tail.comparedName).map fun register =>
      if (if tail.strippedOperator = "cbnz" then Thumb2.Condition.ne else .eq).holds
        (machine.compare register 0).flags then .label label else .behind := by
  have hsecond : tail.secondOperand? = some label := by
    unfold destination at hlabel
    split at hlabel
    next => cases hlabel
    next =>
      split at hlabel
      next target htarget => rw [htarget, Destination.label.inj hlabel]
      next => cases hlabel
  obtain ⟨first, second, rest, hpieces, rfl⟩ := label_of_secondOperand? hsecond
  have hcompared : tail.comparedName = Text.strip first := by rw [comparedName, hpieces]; rfl
  unfold Thumb2.Assembler.outcome? strippedOperator
  dsimp only
  rw [Source.uncommented_eq_self huncommented, hpieces, hcompared]
  -- the register is tested as the processor does, the exit tests the zero flag of a comparison
  rcases operator_of_isCompareBranch h with heq | heq <;> rw [heq]
  · have hstripped : Thumb2.stripCondition "cbz" = "cbz" := by decide
    have htest : Thumb2.compareTest? "cbz" = some fun value => value == 0 := rfl
    rw [hstripped, if_neg (by decide), htest]
    refine congrArg (Option.map · _) (funext fun q => ?_)
    rw [Thumb2.Condition.holds, Thumb2.Machine.zero_compare]
  · have hstripped : Thumb2.stripCondition "cbnz" = "cbnz" := by decide
    have htest : Thumb2.compareTest? "cbnz" = some fun value => value != 0 := rfl
    rw [hstripped, if_pos rfl, htest]
    refine congrArg (Option.map · _) (funext fun q => ?_)
    rw [Thumb2.Condition.holds, Thumb2.Machine.zero_compare]
    rfl

/-- A conditional branch goes to its label if its condition holds. -/
theorem outcome?_of_conditional {condition : Thumb2.Condition}
    (huncommented : Source.Uncommented tail.operands)
    (hcompare : tail.isCompareBranch = false) (hlabel : tail.destination = .label label)
    (hoperator : tail.operator ∈ Thumb2.conditionalBranches)
    (hcondition : Thumb2.Condition.ofBranch? tail.operator = some condition) :
    asm.outcome? tail machine =
      some (if condition.holds machine.flags then .label label else .behind) := by
  -- the mnemonic is read as a branch with this condition, by its stem and suffix
  obtain ⟨hnone, hbranch⟩ := Thumb2.branch?_of_conditional hoperator hcondition
  unfold Thumb2.Assembler.outcome?
  dsimp only
  rw [hnone, hbranch, Source.uncommented_eq_self huncommented, label_eq_strip hcompare hlabel]
  dsimp only [Option.bind_eq_bind, Option.bind_some]
  split
  next => exact Thumb2.Assembler.taken?_label
  next => rfl

/-- A jump is taken always: to its label, or to the address in its register. -/
theorem outcome?_of_jump (huncommented : Source.Uncommented tail.operands)
    (hcompare : tail.isCompareBranch = false) (hlabel : tail.destination = .label label)
    (hoperator : tail.operator = "b" ∨ tail.operator = "bx" ∨ tail.operator = "bl" ∨
      tail.operator = "blx") :
    asm.outcome? tail machine = asm.taken?
      (if tail.operator = "bx" then .register else if tail.operator = "blx" then .either
        else .label) label machine := by
  unfold Thumb2.Assembler.outcome?
  dsimp only
  rw [Source.uncommented_eq_self huncommented, label_eq_strip hcompare hlabel]
  rcases hoperator with heq | heq | heq | heq <;> rw [heq] <;> rfl

/-- The mnemonics of the jumps that have labels. -/
theorem operator_of_always (hread : tail.IsRead) (h : tail.isUnconditional = true)
    (hcompare : tail.isCompareBranch = false) (hlabel : tail.destination = .label label) :
    tail.operator = "b" ∨ tail.operator = "bx" ∨ tail.operator = "bl" ∨ tail.operator = "blx" := by
  obtain hjump | ⟨hcall, -⟩ := operator_of_isUnconditional hread h hcompare hlabel
  · simp only [Thumb2.unconditionalBranches, List.mem_cons, List.not_mem_nil, or_false] at hjump
    exact hjump.imp_right .inl
  · simp only [isNaturalCall, Thumb2.calls, List.contains_eq_mem, List.mem_cons, List.not_mem_nil,
      or_false, decide_eq_true_eq] at hcall
    exact .inr (.inr hcall)

/-- Where an exchange names no register, its label is none. -/
theorem register?_label_eq_none (hbranch : tail.isBranch = true)
    (hregister : ¬ tail.TakesRegister asm) (hcompare : tail.isCompareBranch = false)
    (hlabel : tail.destination = .label label)
    (hexchange : tail.operator = "bx" ∨ tail.operator = "blx") :
    asm.register? label = none := by
  rw [← label_eq_strip hcompare hlabel]
  exact Option.not_isSome_iff_eq_none.1 fun h => hregister ⟨hbranch, hexchange, h⟩

/-- From a tail with a long exit a processor goes somewhere: what is compared is a register, and an
address in a register apart. -/
theorem LeavesBy.exists_outcome (h : tail.LeavesBy exit) (hread : tail.IsRead)
    (huncommented : Source.Uncommented tail.operands) (hbranch : tail.isBranch = true)
    (hcompared : tail.isCompareBranch = true → ∃ q, asm.register? tail.comparedName = some q)
    (hexchange : tail.operator ≠ "bx") (hregister : ¬ tail.TakesRegister asm)
    (machine : Thumb2.Machine) : ∃ outcome, asm.outcome? tail machine = some outcome := by
  cases h with
  | compare hcompare hlabel =>
    obtain ⟨q, hq⟩ := hcompared hcompare
    rw [outcome?_of_isCompareBranch hcompare huncommented hlabel, hq]
    exact ⟨_, rfl⟩
  | @always label hcompare hunconditional hlabel =>
    have hoperator := operator_of_always hread hunconditional hcompare hlabel
    rw [outcome?_of_jump huncommented hcompare hlabel hoperator, if_neg hexchange]
    split
    next hlink =>
      -- such a call goes to a label if it names no register
      exact ⟨_, Thumb2.Assembler.taken?_either_of_none
        (register?_label_eq_none hbranch hregister hcompare hlabel (.inr hlink))⟩
    next => exact ⟨_, Thumb2.Assembler.taken?_label⟩
  | fallthrough hnot => exact absurd (hnot.symm.trans hbranch) Bool.false_ne_true
  | conditional hcompare hunconditional _ hlabel hcondition =>
    have hoperator := operator_of_conditional hbranch hunconditional hcompare
    exact ⟨_, outcome?_of_conditional huncommented hcompare hlabel hoperator hcondition⟩

/-- The exit of a tail goes where a processor goes from the tail, unless that takes an address from
a register. It goes on behind the tail only if the tail may fall through. -/
theorem LeavesBy.goal?_of_outcome? {outcome : Thumb2.Outcome} (h : tail.LeavesBy exit)
    (hread : tail.IsRead) (huncommented : Source.Uncommented tail.operands)
    (hbranch : tail.isBranch = true) (hregister : ¬ tail.TakesRegister asm)
    (houtcome : asm.outcome? tail machine = some outcome) :
    ∃ taken, exit.goal? asm tail.line machine = some (tail.goal taken) ∧
      asm.place (Exit.fallthroughLabel tail.line) outcome = asm.addressOf (tail.goal taken) ∧
      (outcome = .behind → tail.isUnconditional = false) := by
  cases h with
  | compare hcompare hlabel =>
    rw [outcome?_of_isCompareBranch hcompare huncommented hlabel] at houtcome
    obtain ⟨q, hq, rfl⟩ := Option.map_eq_some_iff.1 houtcome
    refine ⟨(if tail.strippedOperator = "cbnz" then Thumb2.Condition.ne else .eq).holds
      (machine.compare q 0).flags, ?_, ?_,
      fun _ => isUnconditional_of_isCompareBranch hread hcompare⟩
    · rw [goal_of_label hlabel, Exit.goal?, hq]
      rfl
    · rw [goal_of_label hlabel, Thumb2.Assembler.place_ite]
  | @always label hcompare hunconditional hlabel =>
    have hoperator := operator_of_always hread hunconditional hcompare hlabel
    rw [outcome?_of_jump huncommented hcompare hlabel hoperator] at houtcome
    -- nothing but a label is left, since the tail names no register where it could
    obtain rfl : outcome = .label label := by
      have hnone := register?_label_eq_none hbranch hregister hcompare hlabel
      split at houtcome
      next hbx =>
        rw [Thumb2.Assembler.taken?_register_of_none (hnone (.inl hbx))] at houtcome
        cases houtcome
      next =>
        split at houtcome
        next hblx =>
          rw [Thumb2.Assembler.taken?_either_of_none (hnone (.inr hblx))] at houtcome
          exact (Option.some.inj houtcome).symm
        next =>
          rw [Thumb2.Assembler.taken?_label] at houtcome
          exact (Option.some.inj houtcome).symm
    refine ⟨true, ?_, ?_, fun h => nomatch h⟩
    · rw [goal_of_label hlabel]
      rfl
    · rw [goal_of_label hlabel]
      rfl
  | fallthrough hnot => exact absurd (hnot.symm.trans hbranch) Bool.false_ne_true
  | @conditional condition label hcompare hunconditional _ hlabel hcondition =>
    have hoperator := operator_of_conditional hbranch hunconditional hcompare
    rw [outcome?_of_conditional huncommented hcompare hlabel hoperator hcondition] at houtcome
    obtain rfl := Option.some.inj houtcome
    refine ⟨condition.holds machine.flags, ?_, ?_, fun _ => hunconditional⟩
    · rw [goal_of_label hlabel]
      rfl
    · rw [goal_of_label hlabel, Thumb2.Assembler.place_ite]

/-- The exit of a tail that takes an address from a register goes to a label instead. -/
theorem LeavesBy.always_of_takesRegister (h : tail.LeavesBy exit)
    (hregister : tail.TakesRegister asm) :
    ∃ label, exit = .always label ∧ tail.isCompareBranch = false ∧
      tail.destination = .label label := by
  cases h with
  | compare hcompare =>
    rcases operator_of_isCompareBranch hcompare with heq | heq <;>
      rcases hregister.exchanges with heq' | heq' <;>
      exact absurd (heq.symm.trans heq') (by decide)
  | always hcompare _ hlabel => exact ⟨_, rfl, hcompare, hlabel⟩
  | fallthrough hnot => exact absurd (hnot.symm.trans hregister.branches) Bool.false_ne_true
  | conditional hcompare hunconditional hbranch =>
    have hoperator := operator_of_conditional hbranch hunconditional hcompare
    -- no conditional branch of the table exchanges
    rcases hregister.exchanges with heq | heq <;> rw [heq] at hoperator <;>
      exact absurd hoperator (by decide)

/-- A processor goes from such a tail to any address that its register holds. -/
theorem TakesRegister.outcome?_eq {value : BitVec 32} (h : tail.TakesRegister asm)
    (huncommented : Source.Uncommented tail.operands) (hodd : value.getLsbD 0 = true)
    (hvalue : ∀ q, machine.registers q = value) :
    asm.outcome? tail machine = some (.address (value - 1)) := by
  obtain ⟨q, hq⟩ := Option.isSome_iff_exists.1 h.register
  -- `bx` and `blx` are no tests, are always taken, and take a register
  have hstems : ∀ flags, (Thumb2.compareTest? tail.operator = none) ∧
      ∃ operand test, Thumb2.branch? tail.operator = some (operand, test) ∧ test flags = true ∧
        operand ≠ .label := by
    intro flags
    rcases h.exchanges with heq | heq <;> rw [heq]
    · exact ⟨rfl, .register, _, rfl, rfl, by decide⟩
    · exact ⟨rfl, .either, _, rfl, rfl, by decide⟩
  obtain ⟨hnone, operand, test, hbranch, htest, hoperand⟩ := hstems machine.flags
  unfold Thumb2.Assembler.outcome?
  dsimp only
  rw [hnone, hbranch, Source.uncommented_eq_self huncommented]
  dsimp only [Option.bind_eq_bind, Option.bind_some]
  rw [if_pos htest]
  rw [Thumb2.Assembler.taken?_of_some hoperand hq (by rw [hvalue]; exact hodd), hvalue]

/-! ## What goes on where a tail goes -/

/-- What stands behind the line of a tail goes on where a processor goes from the tail. A tail that
branches is removed: so this is where it goes itself, and behind it only if it may fall through. Any
other tail stays before it and is left by its end. -/
structure ContinuedBy (tail : Instruction) (asm : Thumb2.Assembler) (r : Fin 16)
    (behind : List String) : Prop where
  removed : tail.isBranch = true → ∀ machine outcome, asm.outcome? tail machine = some outcome →
    asm.Reaches r machine behind (asm.place (Exit.fallthroughLabel tail.line) outcome)
  fallsThrough : tail.isBranch = true → ∀ machine,
    asm.outcome? tail machine = some .behind → tail.isUnconditional = false
  kept : tail.isBranch = false → ∀ machine,
    asm.Reaches r machine behind (asm.addressOf (Exit.fallthroughLabel tail.line))

/-- A tail that is no branch is left behind, in every state. -/
theorem LeavesBy.goal?_of_not_isBranch (h : tail.LeavesBy exit) (hbranch : tail.isBranch = false) :
    exit.goal? asm tail.line machine = some (tail.goal false) := by
  have hnot : tail.isBranch ≠ true := Bool.eq_false_iff.1 hbranch
  cases h with
  | compare hcompare => exact absurd (by simp [isBranch, hcompare]) hnot
  | always _ hunconditional => exact absurd (Bool.and_eq_true_iff.1 hunconditional).1 hnot
  | fallthrough =>
    rw [goal_false]
    rfl
  | conditional _ _ hbranch => exact absurd hbranch hnot

section Continued

variable {r : Fin 16} {behind : List String}
  (hrun : ∀ machine taken, exit.goal? asm tail.line machine = some (tail.goal taken) →
    asm.Reaches r machine behind (asm.addressOf (tail.goal taken)))

include hrun in
/-- Lines that come where the exit of a tail goes continue the tail. -/
theorem LeavesBy.continuedBy (h : tail.LeavesBy exit) (hread : tail.IsRead)
    (huncommented : Source.Uncommented tail.operands) (hregister : ¬ tail.TakesRegister asm) :
    tail.ContinuedBy asm r behind where
  removed hbranch machine outcome houtcome := by
    -- where the tail goes is a goal of the exit, and the lines get there
    obtain ⟨taken, hgoal, hplace, -⟩ :=
      h.goal?_of_outcome? hread huncommented hbranch hregister houtcome
    rw [hplace]
    exact hrun machine taken hgoal
  fallsThrough hbranch machine houtcome := by
    obtain ⟨_, -, -, hfalls⟩ := h.goal?_of_outcome? hread huncommented hbranch hregister houtcome
    exact hfalls rfl
  kept hbranch machine := by
    -- a tail that stays runs on into the lines, which go behind it
    rw [← goal_false tail]
    exact hrun machine false (h.goal?_of_not_isBranch hbranch)

include hrun in
/-- They do not if the tail takes its address from a register: this may hold another address than
that of the label. -/
theorem LeavesBy.not_continuedBy (h : tail.LeavesBy exit)
    (huncommented : Source.Uncommented tail.operands) (hregister : tail.TakesRegister asm) :
    ¬ tail.ContinuedBy asm r behind := by
  intro hcontinued
  obtain ⟨label, rfl, -, hlabel⟩ := h.always_of_takesRegister hregister
  have hgoal : tail.goal true = label := by rw [goal_of_label hlabel, if_pos rfl]
  -- some odd address is not that of the label
  obtain ⟨value, hodd, hother⟩ : ∃ value : BitVec 32,
      value.getLsbD 0 = true ∧ value - 1 ≠ asm.addressOf label := by
    by_cases hzero : asm.addressOf label = 0
    · exact ⟨3, by decide, by rw [hzero]; decide⟩
    · exact ⟨1, by decide, fun h => hzero h.symm⟩
  -- with it in all registers the tail goes there, and the lines go to the label
  let machine : Thumb2.Machine := ⟨fun _ => value, ⟨false, false, false, false⟩⟩
  have houtcome : asm.outcome? tail machine = some (.address (value - 1)) :=
    hregister.outcome?_eq huncommented hodd fun _ => rfl
  have hreaches : asm.Reaches r machine behind (value - 1) :=
    hcontinued.removed hregister.branches machine _ houtcome
  have hlabelled : asm.Reaches r machine behind (asm.addressOf label) := by
    rw [← hgoal]
    exact hrun machine true (by rw [hgoal]; rfl)
  exact hother (hreaches.unique hlabelled)

end Continued

/-! ## The exit of a tail as a text -/

/-- The compared register is a part of the operands, so it is as plain as they are. -/
theorem plain_comparedName (hplain : Source.Plain tail.operands) :
    Source.Plain tail.comparedName := by
  unfold comparedName
  cases hpieces : Text.piecesOf ',' tail.operands with
  | nil => exact fun c hc => absurd hc List.not_mem_nil
  | cons first rest =>
    have hfirst : first ∈ Text.piecesOf ',' tail.operands := by
      rw [hpieces]
      exact List.mem_cons_self
    exact (hplain.of_mem_piecesOf hfirst).strip

/-- All texts in the exit of a parsed tail are plain, so that its lines are read as written. -/
theorem LeavesBy.isPlain (h : tail.LeavesBy exit) (hread : tail.IsRead) : exit.IsPlain := by
  have hlabel : ∀ {label}, tail.destination = .label label → Source.Plain label :=
    plain_of_destination hread.plain
  cases h with
  | compare hcompare hdestination =>
    exact ⟨plain_comparedName hread.plain, hlabel hdestination⟩
  | always _ _ hdestination => exact hlabel hdestination
  | fallthrough => trivial
  | conditional _ _ _ hdestination => exact hlabel hdestination

/-- The exit goes behind the block exactly when the tail may fall through. -/
theorem LeavesBy.fallsThrough_eq (h : tail.LeavesBy exit) (hread : tail.IsRead) :
    exit.fallsThrough = !tail.isUnconditional := by
  cases h with
  | compare hcompare => rw [isUnconditional_of_isCompareBranch hread hcompare]; rfl
  | always _ hunconditional => rw [hunconditional]; rfl
  | fallthrough hbranch => rw [isUnconditional, hbranch]; rfl
  | conditional _ hunconditional => rw [hunconditional]; rfl

end Instruction

end RamOverlay
