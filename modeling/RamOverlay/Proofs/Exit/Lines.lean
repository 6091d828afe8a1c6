import RamOverlay.Proofs.Exit.Reading

/-!
# The lines of an exit, and where they go

* **`Assembler.read?_compare`**, **`read?_ifThenElse`**, **`read?_load`**, **`read?_exchange`**:
  what each kind of line says.
* **`Exit.piecesOf_code`**: the text of an exit, cut at its newlines.
* **`Assembler.run_selection`**: one of two addresses by a condition, in every state of the flags.
* **`Assembler.run_exit_flags`**, **`run_exit`**: a run of the lines of an exit comes to the label
  that `Exit.goal?` names.
-/

namespace RamOverlay

open Source (Plain)

namespace Exit

/-- The lines of `selection`. -/
def selectionLines (register : String) (condition : Thumb2.Condition) (label : String)
    (line : Nat) : List String :=
  ["    ite " ++ condition.suffix,
    "    ldr" ++ condition.suffix ++ " " ++ register ++ ", =" ++ label ++ "+1",
    "    ldr" ++ condition.inverse.suffix ++ " " ++ register ++ ", =" ++ fallthroughLabel line
      ++ "+1",
    "    bx " ++ register]

/-- A comment, and a load of the program counter with its literal pool. -/
def jumpLines (comment label : String) : List String :=
  [comment, "    ldr pc, =" ++ label ++ "+1", "    .ltorg"]

/-- The lines of `code`. -/
def lines (exit : Exit) (register : String) (line : Nat) : List String :=
  match exit with
  | compare condition compared label =>
    ["    # cbz/cbnz conditional indirect", "    cmp " ++ compared ++ ", #0"]
      ++ selectionLines register condition label line ++ ["    .ltorg"]
  | always label => jumpLines "    # Unconditional indirect" label
  | fallthrough => jumpLines "    # Fallthrough indirect" (fallthroughLabel line)
  | conditional condition label =>
    ["    # Conditional indirect"] ++ selectionLines register condition label line ++ [".ltorg"]

/-- An exit whose operands are plain. -/
def IsPlain : Exit → Prop
  | compare _ compared label => Plain compared ∧ Plain label
  | always label | conditional _ label => Plain label
  | fallthrough => True

/-- The flags behind an exit: those of its comparison, if it makes one. -/
def flagsBehind (exit : Exit) (asm : Thumb2.Assembler) (machine : Thumb2.Machine) : Thumb2.Flags :=
  match exit with
  | compare _ compared _ =>
    match asm.register? compared with
    | some register => (machine.compare register 0).flags
    | none => machine.flags
  | always _ | fallthrough | conditional .. => machine.flags

/-- The label that a condition chooses. -/
def chosen (condition : Thumb2.Condition) (label : String) (line : Nat) (flags : Thumb2.Flags) :
    String :=
  if condition.holds flags then label else fallthroughLabel line

/-- The label that an exit goes to from a machine; `none` if it compares no register. -/
def goal? (exit : Exit) (asm : Thumb2.Assembler) (line : Nat) (machine : Thumb2.Machine) :
    Option String :=
  match exit with
  | compare condition compared label =>
    (asm.register? compared).map fun register =>
      chosen condition label line (machine.compare register 0).flags
  | always label => some label
  | fallthrough => some (fallthroughLabel line)
  | conditional condition label => some (chosen condition label line machine.flags)

/-- The selection of an address is written as the lines that the machine is given. -/
theorem joinWith_selectionLines (register : String) (condition : Thumb2.Condition) (label : String)
    (line : Nat) : Text.joinWith "\n" (selectionLines register condition label line) =
      selection register condition label line := by
  have hload : "\n    ldr" = "\n" ++ "    ldr" := rfl
  have hjump : "\n    bx " = "\n" ++ "    bx " := rfl
  unfold selection selectionLines
  rw [hload, hjump]
  simp only [Text.joinWith_cons_cons, Text.joinWith_singleton, String.append_assoc,
    -String.reduceAppend]

/-- So is a jump straight into the program counter. -/
theorem joinWith_jumpLines (comment label : String) :
    Text.joinWith "\n" (jumpLines comment label) =
      comment ++ "\n    ldr pc, =" ++ label ++ "+1\n    .ltorg" := by
  have hload : "\n    ldr pc, =" = "\n" ++ "    ldr pc, =" := rfl
  have hpool : "+1\n    .ltorg" = "+1" ++ "\n" ++ "    .ltorg" := rfl
  unfold jumpLines
  rw [hload, hpool]
  simp only [Text.joinWith_cons_cons, Text.joinWith_singleton, String.append_assoc,
    -String.reduceAppend]

/-- The code of an exit is its lines, so a run over the lines is one over the code. -/
theorem code_eq_joinWith (exit : Exit) (register : String) (line : Nat) :
    exit.code register line = Text.joinWith "\n" (exit.lines register line) := by
  have hselection : ∀ condition label, selectionLines register condition label line ≠ [] :=
    fun _ _ => List.cons_ne_nil _ _
  -- the texts are cut at their newlines; `simp` would join them again
  cases exit with
  | compare condition compared label =>
    have hcompare : "    # cbz/cbnz conditional indirect\n    cmp " =
        "    # cbz/cbnz conditional indirect" ++ "\n" ++ "    cmp " := rfl
    have hzero : ", #0\n" = ", #0" ++ "\n" := rfl
    have hpool : "\n    .ltorg" = "\n" ++ "    .ltorg" := rfl
    unfold code lines
    dsimp only
    rw [List.append_assoc, Text.joinWith_append (List.cons_ne_nil _ _) (by simp),
      Text.joinWith_append (hselection condition label) (List.cons_ne_nil _ _),
      joinWith_selectionLines, hcompare, hzero, hpool]
    simp only [Text.joinWith_cons_cons, Text.joinWith_singleton, String.append_assoc,
      -String.reduceAppend]
  | always label =>
    have hload : "    # Unconditional indirect\n    ldr pc, =" =
        "    # Unconditional indirect" ++ "\n    ldr pc, =" := rfl
    unfold code lines
    dsimp only
    rw [joinWith_jumpLines, hload]
  | fallthrough =>
    have hload : "    # Fallthrough indirect\n    ldr pc, =" =
        "    # Fallthrough indirect" ++ "\n    ldr pc, =" := rfl
    unfold code lines
    dsimp only
    rw [joinWith_jumpLines, hload]
  | conditional condition label =>
    have hcomment : "    # Conditional indirect\n" = "    # Conditional indirect" ++ "\n" := rfl
    have hpool : "\n.ltorg" = "\n" ++ ".ltorg" := rfl
    unfold code lines
    dsimp only
    rw [List.append_assoc, Text.joinWith_append (List.cons_ne_nil _ _) (by simp),
      Text.joinWith_append (hselection condition label) (List.cons_ne_nil _ _),
      joinWith_selectionLines, hcomment, hpool]
    simp only [Text.joinWith_singleton, String.append_assoc, -String.reduceAppend]

theorem plain_fallthroughLabel (line : Nat) : Plain (fallthroughLabel line) := by
  refine Plain.append (by decide) fun c hc => ?_
  have hdigit := Text.isDigit_of_mem_decimal c hc
  refine ⟨?_, ?_, ?_⟩ <;> rintro rfl <;> revert hdigit <;> decide

variable {exit : Exit} {register : String} {line : Nat}

theorem plain_of_mem_selectionLines {condition : Thumb2.Condition} {label s : String}
    (hregister : Plain register) (hlabel : Plain label)
    (h : s ∈ selectionLines register condition label line) : Plain s := by
  have hsuffix : ∀ condition : Thumb2.Condition, Plain condition.suffix := by
    intro condition
    cases condition <;> decide
  -- both loads are put together from plain parts
  have hload : ∀ (condition : Thumb2.Condition) {label}, Plain label →
      Plain ("    ldr" ++ condition.suffix ++ " " ++ register ++ ", =" ++ label ++ "+1") :=
    fun condition _ hlabel => (((((Plain.append (by decide) (hsuffix condition)).append
      (by decide)).append hregister).append (by decide)).append hlabel).append (by decide)
  simp only [selectionLines, List.mem_cons, List.not_mem_nil, or_false] at h
  obtain rfl | rfl | rfl | rfl := h
  · exact Plain.append (by decide) (hsuffix condition)
  · exact hload condition hlabel
  · exact hload condition.inverse (plain_fallthroughLabel line)
  · exact Plain.append (by decide) hregister

theorem plain_of_mem_jumpLines {comment label s : String} (hcomment : Plain comment)
    (hlabel : Plain label) (h : s ∈ jumpLines comment label) : Plain s := by
  simp only [jumpLines, List.mem_cons, List.not_mem_nil, or_false] at h
  obtain rfl | rfl | rfl := h
  · exact hcomment
  · exact (Plain.append (by decide) hlabel).append (by decide)
  · decide

/-- The lines of an exit are plain if the register and the exit are. -/
theorem plain_of_mem_lines {s : String} (hregister : Plain register) (hexit : exit.IsPlain)
    (h : s ∈ exit.lines register line) : Plain s := by
  cases exit with
  | compare condition compared label =>
    simp only [lines, List.mem_append, List.mem_cons, List.not_mem_nil, or_false] at h
    -- the alignment, the comparison, the selection and the jump
    obtain ((rfl | rfl) | h) | rfl := h
    · decide
    · exact (Plain.append (by decide) hexit.1).append (by decide)
    · exact plain_of_mem_selectionLines hregister hexit.2 h
    · decide
  | always label => exact plain_of_mem_jumpLines (by decide) hexit h
  | fallthrough => exact plain_of_mem_jumpLines (by decide) (plain_fallthroughLabel line) h
  | conditional condition label =>
    simp only [lines, List.mem_append, List.mem_cons, List.not_mem_nil, or_false] at h
    obtain (rfl | h) | rfl := h
    · decide
    · exact plain_of_mem_selectionLines hregister hexit h
    · decide

/-- The text of an exit is cut into its lines. -/
theorem piecesOf_code (hregister : Plain register) (hexit : exit.IsPlain) :
    Text.piecesOf '\n' (exit.code register line) = exit.lines register line := by
  rw [code_eq_joinWith]
  refine Text.piecesOf_joinWith ?_ fun s hs hnewline =>
    (plain_of_mem_lines hregister hexit hs _ hnewline).1 rfl
  cases exit <;> simp [lines, jumpLines]

end Exit

namespace Thumb2.Assembler

open Source (IsMnemonic)

variable {asm : Assembler} {operator name label : String} {register : Fin 16}

/-! ## Reading -/

theorem read?_ifThenElse (condition : Condition) :
    asm.read? ("    ite " ++ condition.suffix) = some (.ifThenElse condition) := by
  cases condition <;> rfl

theorem read?_compare (hregister : asm.register? name = some register) :
    asm.read? ("    cmp " ++ name ++ ", #0") = some (.compare register 0) := by
  have hline : "    cmp " ++ name ++ ", #0" = "    " ++ "cmp" ++ " " ++ name ++ ", " ++ "#0" := by
    simp [← String.toList_inj]
  have hzero : ['#', '0'] = ['#'] ++ ['0'] := rfl
  have hconstant : constant? "#0".toList = some 0 := rfl
  rw [hline, read?_binary (by decide) hregister rfl (by decide) hzero (by decide) (by decide),
    binary?, hregister, hconstant]
  rfl

theorem read?_exchange (hregister : asm.register? name = some register) :
    asm.read? ("    bx " ++ name) = some (.exchange register) := by
  have hline : "    bx " ++ name = "    " ++ "bx" ++ " " ++ name := by simp
  rw [hline, read?_unary (by decide) hregister, unary?, if_neg (by decide), if_pos rfl, hregister]
  rfl

theorem literal?_succ (label : List Char) :
    literal? ('=' :: (label ++ ['+', '1'])) = some (String.ofList label, 1) := by
  simp [literal?]

/-- A load of the address behind a label. -/
theorem read?_load {condition? : Option Condition} (hoperator : IsMnemonic operator.toList)
    (hload : loadCondition? operator = some condition?)
    (hregister : asm.register? name = some register) (hlabel : Plain label) :
    asm.read? ("    " ++ operator ++ " " ++ name ++ ", =" ++ label ++ "+1") =
      some (.load condition? register label 1) := by
  have hline : "    " ++ operator ++ " " ++ name ++ ", =" ++ label ++ "+1" =
      "    " ++ operator ++ " " ++ name ++ ", " ++ ("=" ++ label ++ "+1") := by
    simp [← String.toList_inj]
  have hsecond : ("=" ++ label ++ "+1").toList = '=' :: (label.toList ++ ['+', '1']) := by simp
  have hplain : Plain ("=" ++ label ++ "+1") := by
    intro c hc
    rw [hsecond, List.mem_cons, List.mem_append] at hc
    obtain rfl | hc | hc := hc
    · decide
    · exact hlabel c hc
    · have hoffset : Plain "+1" := by decide
      exact hoffset c hc
  have hends : '=' :: (label.toList ++ ['+', '1']) = ('=' :: (label.toList ++ ['+'])) ++ ['1'] := by
    simp
  -- the other instruction with a register in front is excluded by its mnemonic
  have hcompare : operator ≠ "cmp" := by
    rintro rfl
    have hnone : loadCondition? "cmp" = none := rfl
    exact Option.some_ne_none _ (hload.symm.trans hnone)
  rw [hline, read?_binary hoperator hregister hsecond (by decide) hends (by decide) hplain, binary?,
    hregister, hsecond]
  simp [hcompare, hload, literal?_succ]

/-! ## Runs -/

/-- An odd address is a jump to the even one below it. -/
theorem branchTo_succ {machine : Machine} {address : BitVec 32}
    (heven : address.getLsbD 0 = false) :
    branchTo machine (address + 1) = some (.jump machine address) := by
  have hodd : (address + 1).getLsbD 0 = true := by
    simp only [BitVec.getLsbD, Nat.testBit_zero, decide_eq_false_iff_not, decide_eq_true_eq,
      BitVec.toNat_add] at heven ⊢
    have hone : (1 : BitVec 32).toNat = 1 := rfl
    omega
  rw [branchTo, if_pos hodd, BitVec.add_sub_cancel]

variable {machine : Machine} {condition : Condition} {governed : List Condition}
  {rest : List String}

/-- A load under a condition writes its register, or nothing if the condition does not hold. -/
theorem run_load_governed (hregister : asm.register? name = some register)
    (hsafe : register ≠ Machine.programCounter) (hlabel : Plain label) :
    asm.run ⟨machine, condition :: governed⟩
        (("    ldr" ++ condition.suffix ++ " " ++ name ++ ", =" ++ label ++ "+1") :: rest) =
      asm.run ⟨if condition.holds machine.flags then machine.set register (asm.addressOf label + 1)
        else machine, governed⟩ rest := by
  have hoperator : IsMnemonic ("ldr" ++ condition.suffix).toList := by cases condition <;> decide
  have hload : loadCondition? ("ldr" ++ condition.suffix) = some (some condition) := by
    cases condition <;> rfl
  -- the mnemonic with its condition is one word of the line
  have hline : "    ldr" ++ condition.suffix ++ " " ++ name ++ ", =" ++ label ++ "+1" =
      "    " ++ ("ldr" ++ condition.suffix) ++ " " ++ name ++ ", =" ++ label ++ "+1" := by
    simp [← String.toList_inj]
  rw [hline]
  refine asm.run_next (read?_load hoperator hload hregister hlabel) ?_
  cases hholds : condition.holds machine.flags <;> simp [execute, write, hholds, hsafe]

/-- The address of one of two labels is chosen by a condition, and control goes there. -/
theorem run_selection {goal : String} {line : Nat} (hregister : asm.register? name = some register)
    (hsafe : register ≠ Machine.programCounter) (hlabel : Plain label)
    (hgoal : Exit.chosen condition label line machine.flags = goal)
    (heven : (asm.addressOf goal).getLsbD 0 = false) :
    asm.run { machine } (Exit.selectionLines name condition label line ++ rest) =
      some (machine.set register (asm.addressOf goal + 1), asm.addressOf goal) := by
  have hite : asm.execute { machine } (.ifThenElse condition) =
      some (.next ⟨machine, [condition, condition.inverse]⟩) := rfl
  -- the two loads stand under inverse conditions, so that exactly one of them writes
  have hchosen : (if condition.inverse.holds machine.flags then
        (if condition.holds machine.flags then machine.set register (asm.addressOf label + 1)
          else machine).set register (asm.addressOf (Exit.fallthroughLabel line) + 1)
      else if condition.holds machine.flags then machine.set register (asm.addressOf label + 1)
        else machine) =
      machine.set register (asm.addressOf goal + 1) := by
    rw [← hgoal, Exit.chosen, Condition.holds_inverse]
    cases condition.holds machine.flags <;> rfl
  -- the first load leaves the flags to the second one
  have hflags : (if condition.holds machine.flags then
      machine.set register (asm.addressOf label + 1) else machine).flags = machine.flags := by
    split <;> rfl
  have hjump : asm.execute { machine := machine.set register (asm.addressOf goal + 1) }
      (.exchange register) =
      some (.jump (machine.set register (asm.addressOf goal + 1)) (asm.addressOf goal)) := by
    simp only [execute, if_pos, Machine.registers_set_self]
    exact branchTo_succ heven
  unfold Exit.selectionLines
  rw [List.cons_append, List.cons_append, List.cons_append, List.cons_append,
    asm.run_next (read?_ifThenElse condition) hite,
    run_load_governed hregister hsafe hlabel,
    run_load_governed hregister hsafe (Exit.plain_fallthroughLabel line), hflags, hchosen,
    asm.run_jump (read?_exchange hregister) hjump]

/-- A load of the program counter goes to the label. -/
theorem run_loadPc (hlabel : Plain label) (heven : (asm.addressOf label).getLsbD 0 = false) :
    asm.run { machine } (("    ldr pc, =" ++ label ++ "+1") :: rest) =
      some (machine, asm.addressOf label) := by
  have hread : asm.read? ("    ldr pc, =" ++ label ++ "+1") =
      some (.load none Machine.programCounter label 1) := by
    have hstart : "    ldr pc, =" = "    " ++ "ldr" ++ " " ++ "pc" ++ ", =" := rfl
    rw [hstart]
    exact read?_load (by decide) rfl asm.programCounter hlabel
  refine asm.run_jump hread ?_
  simp only [execute, write, if_pos]
  exact branchTo_succ heven

/-- The lines of an exit are run up to a jump to its goal; of the registers, only the one given for
it may be changed, and the flags are those of a comparison or as they were. -/
theorem run_exit_flags {exit : Exit} {goal : String} {line : Nat}
    (hregister : asm.register? name = some register) (hsafe : register ≠ Machine.programCounter)
    (hplain : exit.IsPlain) (hgoal : exit.goal? asm line machine = some goal)
    (heven : (asm.addressOf goal).getLsbD 0 = false) :
    ∃ machine', asm.run { machine } (exit.lines name line ++ rest) =
        some (machine', asm.addressOf goal) ∧
      (∀ other, other ≠ register → machine'.registers other = machine.registers other) ∧
      machine'.flags = exit.flagsBehind asm machine := by
  have hset : ∀ (m : Machine) (value : BitVec 32) (other : Fin 16), other ≠ register →
      (m.set register value).registers other = m.registers other :=
    fun m value _ hother => m.registers_set_of_ne value hother
  have hcomment : ∀ {comment : String} {lines : List String},
      asm.read? comment = some .nothing → asm.run { machine } (comment :: lines) =
        asm.run { machine } lines := fun hread => asm.run_next hread rfl
  cases exit with
  | compare condition compared label =>
    obtain ⟨q, hq, hchosen⟩ := Option.map_eq_some_iff.1 hgoal
    have hcompare : asm.execute { machine } (.compare q 0) =
        some (.next { machine := machine.compare q 0 }) := rfl
    have hflags : (Exit.compare condition compared label).flagsBehind asm machine =
        (machine.compare q 0).flags := by
      rw [Exit.flagsBehind, hq]
    -- the comparison comes before the loads, so `q` and the given register may be the same
    refine ⟨_, ?_, hset (machine.compare q 0) (asm.addressOf goal + 1), hflags.symm⟩
    unfold Exit.lines
    rw [List.append_assoc, List.append_assoc, List.cons_append, List.cons_append, List.nil_append,
      hcomment rfl, asm.run_next (read?_compare hq) hcompare]
    exact run_selection hregister hsafe hplain.2 hchosen heven
  | always label =>
    obtain rfl := Option.some.inj hgoal
    exact ⟨machine, (hcomment rfl).trans (run_loadPc hplain heven), fun _ _ => rfl, rfl⟩
  | fallthrough =>
    obtain rfl := Option.some.inj hgoal
    exact ⟨machine, (hcomment rfl).trans (run_loadPc (Exit.plain_fallthroughLabel line) heven),
      fun _ _ => rfl, rfl⟩
  | conditional condition label =>
    refine ⟨_, ?_, hset machine (asm.addressOf goal + 1), rfl⟩
    unfold Exit.lines
    rw [List.append_assoc, List.append_assoc, List.cons_append, List.nil_append, hcomment rfl]
    exact run_selection hregister hsafe hplain (Option.some.inj hgoal) heven

/-- The lines of an exit are run up to a jump to its goal; of the registers, only the one given for
it may be changed. -/
theorem run_exit {exit : Exit} {goal : String} {line : Nat}
    (hregister : asm.register? name = some register) (hsafe : register ≠ Machine.programCounter)
    (hplain : exit.IsPlain) (hgoal : exit.goal? asm line machine = some goal)
    (heven : (asm.addressOf goal).getLsbD 0 = false) :
    asm.Reaches register machine (exit.lines name line ++ rest) (asm.addressOf goal) := by
  obtain ⟨machine', hrun, hregisters, -⟩ := run_exit_flags hregister hsafe hplain hgoal heven
  exact ⟨machine', hrun, hregisters⟩

end Thumb2.Assembler

end RamOverlay
