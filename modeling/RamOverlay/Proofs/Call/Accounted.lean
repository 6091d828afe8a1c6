import RamOverlay.Proofs.Call.Resolution
import RamOverlay.Proofs.Code.LostLoops
import RamOverlay.Proofs.Code.OtherCalls
import RamOverlay.Proofs.Weight.UnitRoutines

/-!
# No call of defined code is lost

The call graph looks a called label up among the first entries of blocks. That a unit defines the
label is enough to find it there: every called label is a routine label, discovery starts a walk at
the routine labels wherever they are defined, and a block begins where a walk starts.

* **`Corrected.class_cases`**: which entries of a block have been reclassified, and why.
* **`mem_routines_of_entersRoutine`**: so calls go to routine labels.
* **`exists_block_of_mem_definedLabels`**: a defined routine label starts a block of its unit.
* **`Program.accounts_build`**: hence each call has its edge, or its label is not defined at all.
-/

namespace RamOverlay

open Discovery

/-! ## Calls go to routine labels -/

section Calls

variable {unit : SourceUnit} {routines : RoutineLabels} {cut block : Block} {id : BlockId}
  {insn : Instruction} {label : String}

/-- An entry of a block is as the parser made it, or a call that became a jump, or a branch to a
routine label. -/
theorem Corrected.class_cases (h : Corrected unit routines id cut block) (hfresh : unit.Fresh)
    (hcut : cut ∈ cutBlocks unit routines) (hinsn : insn ∈ block.instructions) :
    insn.callClass = .natural ∨ insn.callClass = .suppressed ∨
      insn.callClass = .forced ∧ ∃ label ∈ routines, insn.destination.label? = some label := by
  have hnatural : ∀ {insn}, insn ∈ cut.instructions → insn.callClass = .natural :=
    fun hmem => natural_of_mem hfresh hcut hmem
  cases h with
  | jump =>
    -- only the tail has another class
    change insn ∈ (cut.withTail _).instructions at hinsn
    rw [Block.instructions_withTail] at hinsn
    rcases List.mem_or_eq_of_mem_set hinsn with hmem | rfl
    · exact .inl (hnatural hmem)
    · exact .inr (.inl rfl)
  | kept =>
    have hlinked := linked_linkedBlock unit routines (cutBlocks unit routines) id cut
    generalize linkedBlock unit routines (cutBlocks unit routines) id cut = block at hlinked hinsn
    cases hlinked with
    | plain => exact .inl (hnatural hinsn)
    | jump => exact .inl (hnatural hinsn)
    | lost => exact .inl (hnatural hinsn)
    | @forced label _ hlabel hroutine =>
      change insn ∈ (cut.withTail _).instructions at hinsn
      rw [Block.instructions_withTail] at hinsn
      rcases List.mem_or_eq_of_mem_set hinsn with hmem | rfl
      · exact .inl (hnatural hmem)
      · refine .inr (.inr ⟨rfl, label, hroutine, ?_⟩)
        rw [Instruction.destination_forced (hnatural cut.tail_mem)]
        exact hlabel

/-- What enters a routine goes to a routine label, if the called labels are among these. -/
theorem mem_routines_of_entersRoutine (hfresh : unit.Fresh)
    (hown : ∀ label ∈ unit.routineLabels, label ∈ routines)
    (hcut : cut ∈ cutBlocks unit routines) (h : Corrected unit routines id cut block)
    (hinsn : insn ∈ block.instructions) (henters : insn.entersRoutine = true)
    (hlabel : insn.destination.label? = some label) : label ∈ routines := by
  rcases h.class_cases hfresh hcut hinsn with hclass | hclass | ⟨_, other, hroutine, hother⟩
  · -- a natural call is one of the entries of the unit
    have hget := getElem?_of_mem_instructions hfresh hcut h.plain_eq hinsn
    have hsame : insn.plain = insn := by
      show ({ insn with callClass := .natural } : Instruction) = insn
      rw [← hclass]
    rw [hsame] at hget
    have hcall : insn.isCall = true := by
      rcases Bool.or_eq_true_iff.mp henters with hcall | hforced
      · exact hcall
      · rw [Instruction.isForcedCall, hclass] at hforced
        cases hforced
    apply hown
    show label ∈ unit.functions ++ unit.callTargets
    refine List.mem_append_right _ (List.mem_filterMap.mpr ⟨insn, ?_, hlabel⟩)
    exact List.mem_filter.mpr ⟨List.mem_of_getElem? hget, hcall⟩
  · -- a jump enters nothing
    have hno : insn.entersRoutine = false := by
      simp [Instruction.entersRoutine, Instruction.isCall, Instruction.isForcedCall, hclass]
    rw [hno] at henters
    cases henters
  · obtain rfl := Option.some.inj (hlabel.symm.trans hother)
    exact hroutine

end Calls

/-! ## Defined routine labels start blocks -/

section Routines

variable {unit : SourceUnit} {labels : RoutineLabels} {graph : Graph} {id : BlockId} {block : Block}
  {insn : Instruction} {label : String} (hfresh : unit.Fresh)
include hfresh

/-- What enters a routine has one of the labels of routines. -/
theorem mem_labels_of_mem_routinesIn (hown : ∀ label ∈ unit.routineLabels, label ∈ labels)
    (hgraph : graph ∈ unit.routinesIn labels) (hblock : graph.block? id = some block)
    (hinsn : insn ∈ block.instructions) (henters : insn.entersRoutine = true)
    (hlabel : insn.destination.label? = some label) : label ∈ labels := by
  obtain ⟨_, cut, original, hcut, hcase, hsame⟩ :=
    exists_cut_of_mem_routinesIn hfresh hgraph hblock
  exact mem_routines_of_entersRoutine hfresh hown (List.mem_of_getElem? hcut) hcase
    (hsame ▸ hinsn) henters hlabel

omit hfresh in
theorem exists_addressOf?_of_mem_definedLabels (hdefined : label ∈ unit.definedLabels) :
    ∃ a, unit.addressOf? label = some a := by
  obtain ⟨insn, hinsn, hlabel⟩ := List.mem_filterMap.mp hdefined
  obtain ⟨hinsn, hislabel⟩ := List.mem_filter.mp hinsn
  obtain ⟨i, hi⟩ := List.mem_iff_getElem?.mp hinsn
  apply SourceUnit.exists_addressOf? hi
  show (insn.isLabel && insn.label? == some label) = true
  rw [hislabel, hlabel, beq_self_eq_true, Bool.and_self]

/-- Discovery starts a walk at a routine label that the unit defines, and so a block begins
there. -/
theorem exists_block_of_mem_definedLabels (hplain : unit.PlainSlots) (hlabel : label ∈ labels)
    (hdefined : label ∈ unit.definedLabels) :
    ∃ graph ∈ unit.routinesIn labels, ∃ id block, graph.block? id = some block ∧
      block.first.definesLabel label = true := by
  obtain ⟨a, haddress⟩ := exists_addressOf?_of_mem_definedLabels hdefined
  obtain ⟨corrected, hvalue, hcorrected⟩ := exists_corrected hfresh labels
  obtain ⟨part, hpart, place, _, copy, hcopy, _, hdefines⟩ :=
    hcorrected.exists_start hfresh hplain hlabel haddress
  obtain ⟨graphs, hgraphs, heq⟩ := exists_routines hfresh labels
  obtain rfl := Except.ok.inj (hgraphs.symm.trans (value_routines hfresh hvalue))
  refine ⟨part.analyzeLoops.value, heq ▸ List.mem_map_of_mem hpart, place, copy, ?_, hdefines⟩
  rw [(Graph.alike_analyzeLoops part).block]
  exact hcopy

end Routines

/-! ## Calls of a program -/

/-- Some unit defines the label. -/
def Defined (units : List SourceUnit) (label : String) : Prop :=
  ∃ unit ∈ units, label ∈ unit.definedLabels

/-- The edges are the calls of labels that some unit defines, each to a block that starts with its
label. The labels of all other calls are kept aside, in order and each once. -/
structure CallGraph.Accounts (calls : CallGraph) (units : List SourceUnit) (graphs : List Graph) :
    Prop where
  called : ∀ place label, Calls graphs place label → Defined units label →
    ∃ edge ∈ calls.edges, edge.caller = place ∧ StartsWith graphs label edge.callee
  calling : ∀ edge ∈ calls.edges, ∃ label, Calls graphs edge.caller label ∧
    Defined units label ∧ StartsWith graphs label edge.callee
  unknown : ∀ label, label ∈ calls.unknown ↔
    (∃ place, Calls graphs place label) ∧ ¬ Defined units label
  ascending : calls.unknown.Pairwise (· < ·)

namespace Program

open CallGraph

variable {units : List SourceUnit} {place : BlockRef} {label : String}
  (hfresh : ∀ unit ∈ units, unit.Fresh)
include hfresh

/-- What is called is a routine label of the program. -/
theorem mem_routineLabels_of_calls (hcalls : Calls (builtGraphs units) place label) :
    label ∈ routineLabels units := by
  obtain ⟨block, hblock, insn, hinsn, henters, hlabel⟩ := hcalls
  obtain ⟨graph, hgraph, hblock⟩ := block?_eq_some_iff.1 hblock
  obtain ⟨unit, hunit, hgraph⟩ := List.mem_flatMap.mp (List.mem_of_getElem? hgraph)
  refine mem_labels_of_mem_routinesIn (hfresh unit hunit) ?_ hgraph hblock hinsn henters hlabel
  intro own hown
  rw [routineLabels, Ascending.mem_ofList]
  exact List.mem_flatMap.mpr ⟨unit, hunit, hown⟩

/-- A label that begins a block is defined by some unit. -/
theorem defined_of_startsWith (hstarts : StartsWith (builtGraphs units) label place) :
    Defined units label := by
  obtain ⟨block, hblock, hdefines⟩ := hstarts
  obtain ⟨graph, hgraph, hblock⟩ := block?_eq_some_iff.1 hblock
  obtain ⟨unit, hunit, hgraph⟩ := List.mem_flatMap.mp (List.mem_of_getElem? hgraph)
  exact ⟨unit, hunit, mem_definedLabels_of_mem_routinesIn (hfresh unit hunit) hgraph hblock
    (Block.label?_eq_some_iff.2 hdefines)⟩

/-- A called label starts a block if and only if some unit defines it. -/
theorem exists_startsWith_iff (hplain : ∀ unit ∈ units, unit.PlainSlots)
    (hlabel : label ∈ routineLabels units) :
    (∃ place, StartsWith (builtGraphs units) label place) ↔ Defined units label := by
  constructor
  · rintro ⟨place, hstarts⟩
    exact defined_of_startsWith hfresh hstarts
  · rintro ⟨unit, hunit, hdefined⟩
    obtain ⟨graph, hgraph, id, block, hblock, hdefines⟩ :=
      exists_block_of_mem_definedLabels (hfresh unit hunit) (hplain unit hunit) hlabel hdefined
    have hmem : graph ∈ builtGraphs units := List.mem_flatMap.mpr ⟨unit, hunit, hgraph⟩
    obtain ⟨routine, hroutine⟩ := List.mem_iff_getElem?.mp hmem
    exact ⟨⟨routine, id⟩, block, block?_eq_some_iff.2 ⟨graph, hroutine, hblock⟩, hdefines⟩

omit hfresh in
/-- A build accounts for all calls: none of a defined label is lost. -/
theorem accounts_build (program : Program) (hsome : program.units ≠ [])
    (hfresh : ∀ unit ∈ program.units, unit.Fresh)
    (hplain : ∀ unit ∈ program.units, unit.PlainSlots) :
    ∃ built, program.build.run.value = .ok built ∧
      built.calls.Accounts program.units built.graphs := by
  refine ⟨_, value_build program hsome hfresh, ?_⟩
  show (ofGraphs (builtGraphs program.units)).Accounts _ _
  have hstarts : ∀ {place label}, Calls (builtGraphs program.units) place label →
      ((∃ place, StartsWith (builtGraphs program.units) label place) ↔
        Defined program.units label) := fun hcalls =>
    exists_startsWith_iff hfresh hplain (mem_routineLabels_of_calls hfresh hcalls)
  refine ⟨fun place label hcalls hdefined => ?_, fun edge hedge => ?_, fun label => ?_, ?_⟩
  · obtain ⟨start, hstart⟩ := (hstarts hcalls).2 hdefined
    obtain ⟨callee, hcallee⟩ := exists_entrance? hstart
    exact ⟨⟨place, callee⟩, mem_edges_iff.2 ⟨label, hcalls, hcallee⟩, rfl,
      startsWith_of_entrance? hcallee⟩
  · obtain ⟨label, hcalls, hcallee⟩ := mem_edges_iff.1 hedge
    have hstart := startsWith_of_entrance? hcallee
    exact ⟨label, hcalls, defined_of_startsWith hfresh hstart, hstart⟩
  · rw [mem_unknown_iff, ← not_exists]
    exact and_congr_right fun ⟨_, hcalls⟩ => not_congr (hstarts hcalls)
  · exact Ascending.pairwise_ofList (fun _ _ _ => lt_trans)
      (fun _ _ hnot hne => lt_of_le_of_ne (not_lt.1 hnot) hne.symm) _

end Program

/-- A unit that calls one of its own labels, and one that no unit defines. -/
def printingCaller : SourceUnit :=
  (SourceUnit.parse "a.s"
    "\t.type\tf, %function\nf:\n\tbl\tg\n\tbl\tputs\n\tbx\tlr\ng:\n\tbx\tlr\n").value

/-- A unit that branches into a routine of another one. -/
def brancher : SourceUnit :=
  (SourceUnit.parse "b.s" "\t.type\th, %function\nh:\n\tb\tg\n").value

/-- Both units were just read. -/
theorem fresh_printingCaller : ∀ unit ∈ [printingCaller, brancher], unit.Fresh :=
  List.forall_mem_cons.2 ⟨SourceUnit.fresh_parse _ _,
    List.forall_mem_singleton.2 (SourceUnit.fresh_parse _ _)⟩

/-- So they have no delay slots. -/
theorem plainSlots_printingCaller : ∀ unit ∈ [printingCaller, brancher], unit.PlainSlots :=
  List.forall_mem_cons.2 ⟨SourceUnit.plainSlots_parse _ _,
    List.forall_mem_singleton.2 (SourceUnit.plainSlots_parse _ _)⟩

/-- The theorem applied to a call and a branch that have edges, and to a call of `puts`, which is
listed. -/
theorem accounts_build_printingCaller :
    [printingCaller, brancher] ≠ [] ∧ (∀ unit ∈ [printingCaller, brancher], unit.Fresh) ∧
      (∀ unit ∈ [printingCaller, brancher], unit.PlainSlots) ∧
        ∃ built, ({ units := [printingCaller, brancher] } : Program).build.run.value = .ok built ∧
          built.calls.edges.length = 2 ∧ built.calls.unknown = ["puts"] ∧
            built.calls.Accounts [printingCaller, brancher] built.graphs := by
  have hsome : [printingCaller, brancher] ≠ [] := List.cons_ne_nil _ _
  obtain ⟨built, hbuilt, haccounts⟩ :=
    Program.accounts_build { units := [printingCaller, brancher] } hsome fresh_printingCaller
      plainSlots_printingCaller
  have hcalls : (({ units := [printingCaller, brancher] } : Program).build.run.value.toOption.any
      fun built => built.calls.edges.length == 2 && built.calls.unknown == ["puts"]) = true := by
    decide +kernel
  rw [hbuilt, Except.toOption, Option.any_some, Bool.and_eq_true, beq_iff_eq, beq_iff_eq] at hcalls
  exact ⟨hsome, fresh_printingCaller, plainSlots_printingCaller, built, hbuilt, hcalls.1, hcalls.2,
    haccounts⟩

end RamOverlay
