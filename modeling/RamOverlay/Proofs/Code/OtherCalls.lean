import Mathlib.Data.Nat.Find
import RamOverlay.Proofs.Code.Flows
import RamOverlay.Proofs.Code.Parts

/-!
# Which calls become jumps

The correction of local calls takes a call for a jump if flow connects it with its target, in
whatever direction and over whatever functions.

* **`SourceUnit.FirstDefinition`**: the target that the correction sees for a label
  (`blockDefining?_of_firstDefinition`).
* **`eq_tail_of_call`**: a call to code of the unit is the tail of its block.
* **`suppresses_iff`**: the calls that the routines of a unit have as jumps.
* **`keepsCalls_iff`**: so calls of other functions stay calls if and only if no flow connects them
  with these functions, and `keepsCalls_of_separate`: in particular if no flow leaves a function.
-/

namespace RamOverlay

open Discovery

/-! ## Functions and their calls -/

namespace SourceUnit

variable (unit : SourceUnit)

/-- The declared function that begins at the entry. -/
def functionLabel? (insn : Instruction) : Option String :=
  if insn.isLabel then insn.label?.filter (unit.functions.contains ·) else none

/-- The function of the entry at `a`: the nearest one that begins there or before. -/
def functionAt? (a : Nat) : Option String :=
  ((unit.instructions.take (a + 1)).filterMap unit.functionLabel?).getLast?

/-- The entry at `a` calls a declared function that is not its own. -/
def CallsOther (a : Nat) (label : String) : Prop :=
  ∃ insn, unit.instructions[a]? = some insn ∧ insn.isCall = true ∧
    insn.destination.label? = some label ∧ label ∈ unit.functions ∧ unit.functionAt? a ≠ some label

/-- The first entry among those that can be run that defines the label is the one at `a`. -/
structure FirstDefinition (routines : RoutineLabels) (label : String) (a : Nat) : Prop where
  reached : unit.Reached routines a
  defines : ∃ insn, unit.instructions[a]? = some insn ∧ insn.definesLabel label = true
  first : ∀ b insn, unit.Reached routines b → unit.instructions[b]? = some insn →
    insn.definesLabel label = true → a ≤ b

end SourceUnit

/-- A graph has the entry at `a` as a call that is used as a jump. -/
def Suppresses (graphs : List Graph) (a : Nat) : Prop :=
  ∃ graph ∈ graphs, ∃ id block, graph.block? id = some block ∧
    ∃ insn ∈ block.instructions, insn.address = a ∧ insn.callClass = .suppressed

/-- No call of another function is used as a jump. -/
def SourceUnit.KeepsCalls (unit : SourceUnit) (graphs : List Graph) : Prop :=
  ∀ a label, unit.CallsOther a label → ¬ Suppresses graphs a

section Calls

variable {unit : SourceUnit} {routines : RoutineLabels} {a b : Nat} {id target : BlockId}
  {cut block : Block} {insn : Instruction} {label : String} {graph : Graph}

/-! ## The block of a label -/

/-- The block holds the label if one of its entries that can be run defines it: delay slots are
plain. -/
theorem holds_linkedGraph_iff (hfresh : unit.Fresh) (hplain : unit.PlainSlots) :
    (linkedGraph unit routines).Holds label id ↔ ∃ a insn, unit.Reached routines a ∧
      unit.LiesIn routines a id ∧ unit.instructions[a]? = some insn ∧
        insn.definesLabel label = true := by
  rw [holds_linkedGraph]
  constructor
  · rintro ⟨cut, hcut, hcontains⟩
    obtain ⟨insn, hmem, hdefines⟩ := List.any_eq_true.mp hcontains
    obtain ⟨i, hi⟩ := List.mem_iff_getElem?.mp hmem
    have hin := List.mem_of_getElem? hcut
    have hinsn := (cutOut_cutBlocks hfresh hin).getElem?_eq hi
    have haddress : insn.address ∈ cut.addresses := List.mem_map_of_mem hmem
    rw [hfresh.address _ insn hinsn] at haddress
    refine ⟨_, insn, ?_, ⟨cut, hcut, haddress⟩, hinsn, hdefines⟩
    -- the entry is a label, and no delay slot is one
    refine ((exists_mem_addresses hfresh).1 ⟨id, cut, hcut, haddress⟩).resolve_right ?_
    rintro ⟨b, branch, _, hbranch, hisbranch, hdelay, heq, _⟩
    have hlabel := (hplain.slot hbranch hisbranch hdelay (heq ▸ hinsn)).1
    rw [Instruction.definesLabel, hlabel] at hdefines
    cases hdefines
  · rintro ⟨a, insn, _, ⟨cut, hcut, hmem⟩, hinsn, hdefines⟩
    have hin := List.mem_of_getElem? hcut
    obtain ⟨hle, hlt⟩ := (mem_addresses_iff hfresh hin).1 hmem
    have hget := (cutOut_cutBlocks hfresh hin).getElem?_of_lt (i := a - cut.address)
      (by unfold Block.stop at hlt; omega)
    rw [Nat.add_sub_cancel' hle, hinsn] at hget
    exact ⟨cut, hcut, List.any_eq_true.mpr ⟨insn, List.mem_of_getElem? hget, hdefines⟩⟩

/-- The block that is found for a label is the first one that has it. -/
theorem le_of_blockDefining? (h : graph.blockDefining? label = some target)
    (hholds : graph.Holds label id) : target ≤ id := by
  obtain ⟨hlt, _, hnot⟩ := Array.findIdx?_eq_some_iff_getElem.mp h
  by_contra hgt
  obtain ⟨block, hblock, hcontains⟩ := hholds
  obtain ⟨node, hnode, rfl⟩ := Option.map_eq_some_iff.mp hblock
  obtain ⟨_, rfl⟩ := Array.getElem?_eq_some_iff.mp hnode
  exact hnot id (Nat.lt_of_not_le hgt) hcontains

/-- The first block with a label is the block of its first definition. -/
theorem blockDefining?_of_firstDefinition (hfresh : unit.Fresh) (hplain : unit.PlainSlots)
    (h : unit.FirstDefinition routines label a) (hid : unit.LiesIn routines a id) :
    (linkedGraph unit routines).blockDefining? label = some id := by
  obtain ⟨insn, hinsn, hdefines⟩ := h.defines
  have hholds := (holds_linkedGraph_iff hfresh hplain).2
    ⟨a, insn, h.reached, hid, hinsn, hdefines⟩
  obtain ⟨target, htarget⟩ := exists_blockDefining? hholds
  obtain ⟨b, other, hb, ⟨cut, hcut, hmem⟩, hother, hdefines'⟩ :=
    (holds_linkedGraph_iff hfresh hplain).1 (holds_of_blockDefining? htarget)
  obtain ⟨cut', hcut', hmem'⟩ := hid
  -- a block before that of the first definition would hold an earlier one
  rcases Nat.eq_or_lt_of_le (le_of_blockDefining? htarget hholds) with rfl | hlt
  · exact htarget
  · have hafter := lt_of_mem_addresses hfresh hcut hcut' hlt b hmem a hmem'
    exact absurd (h.first b other hb hother hdefines') (Nat.not_le.mpr hafter)

/-- What is found for a label in the graph is the first entry of the unit that defines it there. -/
theorem exists_firstDefinition (hfresh : unit.Fresh) (hplain : unit.PlainSlots)
    (h : (linkedGraph unit routines).blockDefining? label = some target) :
    ∃ a, unit.FirstDefinition routines label a ∧ unit.LiesIn routines a target := by
  classical
  -- some reached entry defines the label, so there is a least one
  have hex : ∃ a, unit.Reached routines a ∧
      ∃ insn, unit.instructions[a]? = some insn ∧ insn.definesLabel label = true := by
    obtain ⟨a, insn, ha, _, hinsn, hdefines⟩ :=
      (holds_linkedGraph_iff hfresh hplain).1 (holds_of_blockDefining? h)
    exact ⟨a, ha, insn, hinsn, hdefines⟩
  obtain ⟨hreached, hdefines⟩ := Nat.find_spec hex
  have hfirst : unit.FirstDefinition routines label (Nat.find hex) :=
    ⟨hreached, hdefines, fun b insn hb hinsn hdefines =>
      Nat.find_min' hex ⟨hb, insn, hinsn, hdefines⟩⟩
  obtain ⟨id, hid⟩ := hreached.exists_liesIn hfresh
  have htarget := blockDefining?_of_firstDefinition hfresh hplain hfirst hid
  obtain rfl := Option.some.inj (h.symm.trans htarget)
  exact ⟨_, hfirst, hid⟩

/-! ## The block of a call -/

/-- A call to code of the unit ends its block, since a walk is asked for behind it. -/
theorem eq_tail_of_call (hfresh : unit.Fresh) (hplain : unit.PlainSlots)
    (hcut : cut ∈ cutBlocks unit routines) (ha : unit.Reached routines a)
    (hmem : a ∈ cut.addresses) (hinsn : unit.instructions[a]? = some insn)
    (hcall : insn.isCall = true) (hlabel : insn.destination.label? = some label)
    (haddress : unit.addressOf? label = some b) : a = cut.tail.address := by
  have hfirst := ((mem_addresses_iff hfresh hcut).1 hmem).1
  refine (Nat.eq_or_lt_of_le (le_tail_of_reached hfresh hplain hcut ha hmem)).resolve_right ?_
  intro hlt
  -- else the next entry would be in the block, although a block begins there
  have hnext := reached_of_le_tail hfresh hplain hcut (Nat.le_succ_of_le hfirst) hlt
  have hstop := tail_lt_stop hfresh hplain hcut
  have hasked := ((followed_of_reached hfresh ha hinsn).call hcall label b hlabel haddress).2
  have hbegins := (processed_of_taken hfresh (hnext.lt hfresh)
    ((discover_marked hfresh routines).2.1 _ hasked)).2
  have hslot := (cutOut_cutBlocks hfresh hcut).before (a + 1 - cut.address) (by omega)
    (by unfold Block.stop at hstop; omega)
  rw [Nat.add_sub_cancel' (by omega)] at hslot
  exact hplain.not_reached hfresh (hslot hbegins) hnext

theorem natural_of_mem (hfresh : unit.Fresh) (hcut : cut ∈ cutBlocks unit routines)
    (hinsn : insn ∈ cut.instructions) : insn.callClass = .natural := by
  obtain ⟨i, hi⟩ := List.mem_iff_getElem?.mp hinsn
  exact hfresh.natural _ insn ((cutOut_cutBlocks hfresh hcut).getElem?_eq hi)

/-- A linked block has no jump among its calls. -/
theorem not_suppressed_linkedBlock (hfresh : unit.Fresh) (blocks : List Block) (id : BlockId)
    (hcut : cut ∈ cutBlocks unit routines) :
    ∀ insn ∈ (linkedBlock unit routines blocks id cut).instructions,
      insn.callClass ≠ .suppressed := by
  have hnatural : ∀ insn ∈ cut.instructions, insn.callClass = .natural :=
    fun insn => natural_of_mem hfresh hcut
  have hlinked := linked_linkedBlock unit routines blocks id cut
  generalize linkedBlock unit routines blocks id cut = block at hlinked ⊢
  intro insn hinsn
  cases hlinked with
  | forced =>
    -- only the tail is new, and it is a forced call
    change insn ∈ (cut.withTail _).instructions at hinsn
    rw [Block.instructions_withTail] at hinsn
    rcases List.mem_or_eq_of_mem_set hinsn with hmem | rfl
    · simp [hnatural insn hmem]
    · simp
  | plain => simp [hnatural insn hinsn]
  | lost => simp [hnatural insn hinsn]
  | jump => simp [hnatural insn hinsn]

/-- A call that the corrected graph has as a jump is the tail of its block, joined to its target. -/
theorem Graph.IsCorrected.exists_jump_iff (h : graph.IsCorrected unit routines)
    (hfresh : unit.Fresh) :
    (∃ id block, graph.block? id = some block ∧
        ∃ insn ∈ block.instructions, insn.address = a ∧ insn.callClass = .suppressed) ↔
      ∃ id cut label target, (cutBlocks unit routines)[id]? = some cut ∧
        graph.block? id = some (cut.jumpTo target) ∧ cut.tail.isCall = true ∧
          cut.tail.destination.label? = some label ∧
            (linkedGraph unit routines).blockDefining? label = some target ∧
              (linkedGraph unit routines).Joined id target ∧ cut.tail.address = a := by
  constructor
  · rintro ⟨id, block, hblock, insn, hinsn, rfl, hclass⟩
    obtain ⟨cut, hcut, hcorrected⟩ := h.exists_cut hblock
    have hin := List.mem_of_getElem? hcut
    cases hcorrected with
    | kept => exact absurd hclass (not_suppressed_linkedBlock hfresh _ id hin insn hinsn)
    | @jump label target hcall hlabel htarget hjoined =>
      refine ⟨id, cut, label, target, hcut, hblock, hcall, hlabel, htarget, hjoined, ?_⟩
      -- no entry but the new tail has the class
      change insn ∈ (cut.withTail _).instructions at hinsn
      rw [Block.instructions_withTail] at hinsn
      rcases List.mem_or_eq_of_mem_set hinsn with hmem | rfl
      · rw [natural_of_mem hfresh hin hmem] at hclass
        cases hclass
      · rfl
  · rintro ⟨id, cut, _, target, _, hblock, _, _, _, _, rfl⟩
    refine ⟨id, _, hblock, _, (cut.jumpTo target).tail_mem, ?_⟩
    rw [cut.tail_jumpTo]
    exact ⟨rfl, rfl⟩

/-- The entries that the corrected graph has as jumps are the calls that flow connects with their
targets. -/
theorem Graph.IsCorrected.suppressed_iff (h : graph.IsCorrected unit routines)
    (hfresh : unit.Fresh) (hplain : unit.PlainSlots) :
    (∃ id block, graph.block? id = some block ∧
        ∃ insn ∈ block.instructions, insn.address = a ∧ insn.callClass = .suppressed) ↔
      ∃ insn label b, unit.Reached routines a ∧ unit.instructions[a]? = some insn ∧
        insn.isCall = true ∧ insn.destination.label? = some label ∧
          unit.FirstDefinition routines label b ∧ unit.Connected routines a b := by
  rw [h.exists_jump_iff hfresh]
  constructor
  · rintro ⟨id, cut, label, target, hcut, _, hcall, hlabel, htarget, hjoined, rfl⟩
    obtain ⟨hreached, hget, _⟩ := tail_cutBlocks hfresh hplain (List.mem_of_getElem? hcut)
    obtain ⟨b, hfirst, hb⟩ := exists_firstDefinition hfresh hplain htarget
    refine ⟨cut.tail, label, b, hreached, hget, hcall, hlabel, hfirst, ?_⟩
    exact (joined_iff_connected hfresh hplain hreached hfirst.reached
      ⟨cut, hcut, cut.tail_mem_addresses⟩ hb).1 hjoined
  · rintro ⟨insn, label, b, hreached, hinsn, hcall, hlabel, hfirst, hconnected⟩
    obtain ⟨id, cut, hcut, hmem⟩ := hreached.exists_liesIn hfresh
    obtain ⟨target, htarget⟩ := hfirst.reached.exists_liesIn hfresh
    have hin := List.mem_of_getElem? hcut
    obtain ⟨other, hother, hdefines⟩ := hfirst.defines
    obtain ⟨last, haddress⟩ := SourceUnit.exists_addressOf? hother hdefines
    -- the call is the tail of its block, so it has become a jump or was kept
    obtain rfl :=
      eq_tail_of_call hfresh hplain hin hreached hmem hinsn hcall hlabel haddress
    obtain rfl := Option.some.inj (hinsn.symm.trans (tail_cutBlocks hfresh hplain hin).2.1)
    obtain ⟨block, hblock, hcorrected⟩ := h.corrected id cut hcut
    cases hcorrected with
    | @jump label' target' hcall' hlabel' htarget' hjoined' =>
      exact ⟨id, cut, label', target', hcut, hblock, hcall', hlabel', htarget', hjoined', rfl⟩
    | kept hno =>
      refine absurd ?_ (hno hcall label target hlabel
        (blockDefining?_of_firstDefinition hfresh hplain hfirst htarget))
      exact (joined_iff_connected hfresh hplain hreached hfirst.reached ⟨cut, hcut, hmem⟩
        htarget).2 hconnected

/-- The routines have the jumps of the corrected graph. -/
theorem Graph.IsCorrected.suppresses_partition_iff (h : graph.IsCorrected unit routines) :
    Suppresses (graph.partition routines).value a ↔ ∃ id block, graph.block? id = some block ∧
      ∃ insn ∈ block.instructions, insn.address = a ∧ insn.callClass = .suppressed :=
  Graph.exists_block_partition_iff h.lt_size fun _ _ => Iff.rfl

/-- The routines of a unit have those calls as jumps that flow connects with their targets. -/
theorem suppresses_iff (hfresh : unit.Fresh) (hplain : unit.PlainSlots) (routines : RoutineLabels) :
    ∃ graphs, (unit.routines routines).run.value = .ok graphs ∧ ∀ a, Suppresses graphs a ↔
      ∃ insn label b, unit.Reached routines a ∧ unit.instructions[a]? = some insn ∧
        insn.isCall = true ∧ insn.destination.label? = some label ∧
          unit.FirstDefinition routines label b ∧ unit.Connected routines a b := by
  obtain ⟨graph, hvalue, hcorrected⟩ := exists_corrected hfresh routines
  refine ⟨_, value_routines hfresh hvalue, fun a => ?_⟩
  rw [hcorrected.suppresses_partition_iff, hcorrected.suppressed_iff hfresh hplain]

/-! ## Calls of other functions -/

end Calls

namespace SourceUnit

variable {unit : SourceUnit} {routines : RoutineLabels} {a b : Nat} {label : String}

/-- No flow leaves a function. -/
def Separate (unit : SourceUnit) (routines : RoutineLabels) : Prop :=
  ∀ a b, unit.Reached routines a → unit.Flows routines a b →
    unit.functionAt? a = unit.functionAt? b

/-- In a unit whose functions are separate, connected entries are of one function. -/
theorem Separate.connected (h : unit.Separate routines) (hconnected : unit.Connected routines a b) :
    unit.functionAt? a = unit.functionAt? b := by
  induction hconnected with
  | rel a b hab => exact h a b hab.1 hab.2
  | refl a => rfl
  | symm a b _ ih => exact ih.symm
  | trans a b c _ _ ih ih' => exact ih.trans ih'

/-- A function begins at its label. -/
theorem functionAt?_of_definesLabel {insn : Instruction}
    (hinsn : unit.instructions[a]? = some insn) (hdefines : insn.definesLabel label = true)
    (hfunction : label ∈ unit.functions) : unit.functionAt? a = some label := by
  obtain ⟨hlabel, hname⟩ := Bool.and_eq_true_iff.mp hdefines
  have hsome : unit.functionLabel? insn = some label := by
    rw [functionLabel?, if_pos hlabel, beq_iff_eq.mp hname]
    simp [hfunction]
  rw [functionAt?, List.take_add_one, List.filterMap_append, hinsn, Option.toList_some,
    List.filterMap_cons_some hsome, List.filterMap_nil, List.getLast?_concat]

end SourceUnit

/-- Calls of other functions stay calls if and only if no flow connects them with these
functions. -/
theorem keepsCalls_iff {unit : SourceUnit} (hfresh : unit.Fresh) (hplain : unit.PlainSlots)
    (routines : RoutineLabels) :
    ∃ graphs, (unit.routines routines).run.value = .ok graphs ∧
      (unit.KeepsCalls graphs ↔ ∀ a b label, unit.CallsOther a label →
        unit.Reached routines a → unit.FirstDefinition routines label b →
          ¬ unit.Connected routines a b) := by
  obtain ⟨graphs, hvalue, hiff⟩ := suppresses_iff hfresh hplain routines
  refine ⟨graphs, hvalue, fun h a b label hcall hreached hfirst hconnected => ?_,
    fun h a label hcall hsuppressed => ?_⟩
  · obtain ⟨insn, hinsn, hiscall, hlabel, _⟩ := id hcall
    exact h a label hcall ((hiff a).2
      ⟨insn, label, b, hreached, hinsn, hiscall, hlabel, hfirst, hconnected⟩)
  · obtain ⟨insn, label', b, hreached, hinsn, _, hlabel', hfirst, hconnected⟩ :=
      (hiff a).1 hsuppressed
    obtain ⟨insn', hinsn', _, hlabel, _⟩ := id hcall
    obtain rfl := Option.some.inj (hinsn.symm.trans hinsn')
    obtain rfl := Option.some.inj (hlabel.symm.trans hlabel')
    exact h a b label hcall hreached hfirst hconnected

/-- The theorem applied to `longJump`, whose call leads into its own component. -/
theorem keepsCalls_longJump :
    longJump.Fresh ∧ longJump.PlainSlots ∧
      ∃ graphs, (longJump.routines ["f"]).run.value = .ok graphs ∧
        (longJump.KeepsCalls graphs ↔ ∀ a b label, longJump.CallsOther a label →
          longJump.Reached ["f"] a → longJump.FirstDefinition ["f"] label b →
            ¬ longJump.Connected ["f"] a b) := by
  have hfresh : longJump.Fresh := (SourceUnit.fresh_parse _ _).markDelaySlots _
  have hplain : longJump.PlainSlots := by decide
  exact ⟨hfresh, hplain, keepsCalls_iff hfresh hplain ["f"]⟩

/-- A function that calls the next one, and ends with a call that does not come back. -/
def abortingCaller : SourceUnit :=
  (SourceUnit.parse "abort.s"
    ("\t.type\tf, %function\nf:\n\tbl\tg\n\tbl\tabort\n"
      ++ "\t.type\tg, %function\ng:\n\tbx\tlr\n")).value

/-- What follows a call that does not come back is taken for its continuation, so that flow leads
into the next function and the call of that becomes a jump. -/
theorem not_keepsCalls_abortingCaller :
    abortingCaller.Fresh ∧ abortingCaller.PlainSlots ∧
      ∃ graphs, (abortingCaller.routines (routineLabels [abortingCaller])).run.value = .ok graphs ∧
        ¬ abortingCaller.KeepsCalls graphs := by
  have hfresh : abortingCaller.Fresh := SourceUnit.fresh_parse _ _
  have hplain : abortingCaller.PlainSlots := SourceUnit.plainSlots_parse _ _
  obtain ⟨graphs, hvalue, hiff⟩ :=
    suppresses_iff hfresh hplain (routineLabels [abortingCaller])
  refine ⟨hfresh, hplain, graphs, hvalue, fun hkeeps => ?_⟩
  have hcall : abortingCaller.instructions[1]? =
      some { address := 1, line := 2, operator := "bl", operands := "g" } := by decide
  have habort : abortingCaller.instructions[2]? =
      some { address := 2, line := 3, operator := "bl", operands := "abort" } := by decide
  have hentry : abortingCaller.Reached (routineLabels [abortingCaller]) 0 :=
    .entrance (show "f" ∈ _ by decide) (by decide)
  have hone := hentry.flows (.next (List.getElem?_eq_getElem (by decide)) (by decide) (by decide))
  have hflows : abortingCaller.Flows (routineLabels [abortingCaller]) 1 2 :=
    .next hcall (by decide) (by decide)
  have hflows' : abortingCaller.Flows (routineLabels [abortingCaller]) 2 3 :=
    .next habort (by decide) (by decide)
  have htwo := hone.flows hflows
  have hother : abortingCaller.CallsOther 1 "g" :=
    ⟨_, hcall, by decide, by decide, by decide, by decide⟩
  have hbefore : ∀ b < 3,
      (abortingCaller.instructions[b]?).any (·.definesLabel "g") = false := by decide
  refine hkeeps 1 "g" hother ((hiff 1).2 ⟨_, "g", 3, hone, hcall, by decide, by decide, ?_, ?_⟩)
  · refine ⟨htwo.flows hflows', ⟨_, List.getElem?_eq_getElem (by decide), by decide⟩, ?_⟩
    intro b insn _ hinsn hdefines
    by_contra hlt
    have hno := hbefore b (Nat.lt_of_not_le hlt)
    rw [hinsn, Option.any_some, hdefines] at hno
    cases hno
  · exact .trans _ _ _ (.rel _ _ ⟨hone, hflows⟩) (.rel _ _ ⟨htwo, hflows'⟩)

/-- Where no flow leaves a function, no call of another function becomes a jump. -/
theorem keepsCalls_of_separate {unit : SourceUnit} (hfresh : unit.Fresh)
    (hplain : unit.PlainSlots) {routines : RoutineLabels} (hseparate : unit.Separate routines) :
    ∃ graphs, (unit.routines routines).run.value = .ok graphs ∧ unit.KeepsCalls graphs := by
  obtain ⟨graphs, hvalue, hiff⟩ := suppresses_iff hfresh hplain routines
  refine ⟨graphs, hvalue, fun a label hcall hsuppressed => ?_⟩
  obtain ⟨insn, label', b, _, hinsn, _, hlabel', hfirst, hconnected⟩ := (hiff a).1 hsuppressed
  obtain ⟨insn', hinsn', _, hlabel, hfunction, hother⟩ := hcall
  obtain rfl := Option.some.inj (hinsn.symm.trans hinsn')
  obtain rfl := Option.some.inj (hlabel.symm.trans hlabel')
  obtain ⟨target, htarget, hdefines⟩ := hfirst.defines
  refine hother ((hseparate.connected hconnected).trans ?_)
  exact SourceUnit.functionAt?_of_definesLabel htarget hdefines hfunction

end RamOverlay
