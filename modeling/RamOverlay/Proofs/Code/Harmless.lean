import RamOverlay.Proofs.Code.Begins
import RamOverlay.Proofs.Code.OtherCalls
import RamOverlay.Proofs.Code.Partition

/-!
# Routine labels without effect

The routine labels of all units count in each of them. A label that only other units declare or call
is foreign to a unit, and a routine label there all the same: what was a jump to it leaves the
routine then, and where the unit defines it a routine starts. Not every foreign label makes a
difference.

* **`SourceUnit.Harmless`**: a label that no branch goes to, and that is defined, if at all, where a
  routine starts anyway.
* **`reached_iff_of_harmless`, `begins_iff_of_harmless`, `linkedGraph_eq_of_harmless`**: such labels
  leave the code that can be run, where walks start, and so the blocks and their links.
* **`fallthrough_of_foreign`**: an edge into a block with such a label comes from the block before.
* **`entrance_iff_of_harmless`, `value_eq_of_harmless`**: so they leave the starts and the routines.
-/

namespace RamOverlay

open Discovery

namespace SourceUnit

/-- A branch that can be run goes to the label. -/
def BranchesTo (unit : SourceUnit) (routines : RoutineLabels) (label : String) : Prop :=
  ∃ a insn, unit.Reached routines a ∧ unit.instructions[a]? = some insn ∧ insn.isBranch = true ∧
    insn.destination.label? = some label

/-- No branch of the unit goes to the label, and if the unit defines it, it does so right behind a
call that is used as a jump. -/
structure Harmless (unit : SourceUnit) (routines : RoutineLabels) (graphs : List Graph)
    (label : String) : Prop where
  branch : ¬ unit.BranchesTo routines label
  definition : ∀ a, unit.addressOf? label = some a → ∃ b, a = b + 1 ∧ Suppresses graphs b

end SourceUnit

section Units

variable {unit : SourceUnit} {own routines : RoutineLabels} {graph : Graph} {id : BlockId}
  {cut : Block} {label : String} {a b : Nat}

/-! ## Harmless labels -/

section Harmless

variable (hfresh : unit.Fresh) (hplain : unit.PlainSlots) (hsub : ∀ label ∈ own, label ∈ routines)
  (hcorrected : graph.IsCorrected unit own)
  (hharmless : ∀ label ∈ routines, label ∉ own →
    unit.Harmless own (graph.partition own).value label)
include hfresh hplain hsub hcorrected hharmless

omit hsub in
/-- A harmless label is defined behind a call, so that control comes there, and a walk starts there,
in any case. -/
theorem exists_call_of_harmless (hlabel : label ∈ routines) (hforeign : label ∉ own)
    (haddress : unit.addressOf? label = some a) : ∃ b insn label target, a = b + 1 ∧
      unit.Reached own b ∧ unit.instructions[b]? = some insn ∧ insn.isCall = true ∧
        insn.destination.label? = some label ∧ unit.addressOf? label = some target := by
  obtain ⟨b, rfl, hsuppressed⟩ := (hharmless label hlabel hforeign).definition a haddress
  obtain ⟨id, cut, called, target, hcut, _, hcall, hcalled, htarget, _, rfl⟩ :=
    (hcorrected.exists_jump_iff hfresh).1 (hcorrected.suppresses_partition_iff.1 hsuppressed)
  obtain ⟨hreached, hget, _⟩ := tail_cutBlocks hfresh hplain (List.mem_of_getElem? hcut)
  obtain ⟨first, hfirst, _⟩ := exists_firstDefinition hfresh hplain htarget
  obtain ⟨insn, hinsn, hdefines⟩ := hfirst.defines
  obtain ⟨last, hlast⟩ := SourceUnit.exists_addressOf? hinsn hdefines
  exact ⟨_, cut.tail, called, last, rfl, hreached, hget, hcall, hcalled, hlast⟩

/-- Harmless labels reach no entry, and hide none. -/
theorem reached_iff_of_harmless : unit.Reached routines a ↔ unit.Reached own a := by
  constructor
  · intro h
    induction h with
    | @entrance label a hlabel haddress =>
      by_cases hown : label ∈ own
      · exact .entrance hown haddress
      · -- control comes there from the call before
        obtain ⟨b, insn, _, _, rfl, hreached, hinsn, hcall, _⟩ :=
          exists_call_of_harmless hfresh hplain hcorrected hharmless hlabel hown haddress
        exact .next hreached hinsn (Instruction.isBranch_of_isCall hcall (hfresh.natural _ _ hinsn))
          (hfresh.lt_of_addressOf? haddress)
    | next _ hinsn hbranch hlt ih => exact .next ih hinsn hbranch hlt
    | call _ hinsn hcall hlabel haddress ih => exact .call ih hinsn hcall hlabel haddress
    | jump _ hinsn hbranch hlabel hlocal haddress ih =>
      exact .jump ih hinsn hbranch hlabel (mt (hsub _) hlocal) haddress
    | fall _ hinsn hbranch hfalls hlt ih => exact .fall ih hinsn hbranch hfalls hlt
  · intro h
    induction h with
    | entrance hlabel haddress => exact .entrance (hsub _ hlabel) haddress
    | next _ hinsn hbranch hlt ih => exact .next ih hinsn hbranch hlt
    | call _ hinsn hcall hlabel haddress ih => exact .call ih hinsn hcall hlabel haddress
    | jump h hinsn hbranch hlabel hlocal haddress ih =>
      -- the branch is a jump with all labels too, since it goes to none of the foreign ones
      exact .jump ih hinsn hbranch hlabel
        (fun hroutine => (hharmless _ hroutine hlocal).branch ⟨_, _, h, hinsn, hbranch, hlabel⟩)
        haddress
    | fall _ hinsn hbranch hfalls hlt ih => exact .fall ih hinsn hbranch hfalls hlt

/-- Harmless labels cut no block in two, and join none. -/
theorem begins_iff_of_harmless : unit.Begins routines a ↔ unit.Begins own a := by
  have hreached : ∀ a, unit.Reached routines a ↔ unit.Reached own a :=
    fun _ => reached_iff_of_harmless hfresh hplain hsub hcorrected hharmless
  constructor
  · intro h
    cases h with
    | @entrance label a hlabel haddress =>
      by_cases hown : label ∈ own
      · exact .entrance hown haddress
      · -- code at a foreign label is reached by a call
        obtain ⟨b, insn, _, _, rfl, hreached, hinsn, hcall, hcalled, htarget⟩ :=
          exists_call_of_harmless hfresh hplain hcorrected hharmless hlabel hown haddress
        exact .behind hreached hinsn hcall hcalled htarget
    | call h hinsn hcall hlabel haddress =>
      exact .call ((hreached _).1 h) hinsn hcall hlabel haddress
    | behind h hinsn hcall hlabel haddress =>
      exact .behind ((hreached _).1 h) hinsn hcall hlabel haddress
    | jump h hinsn hbranch hlabel hlocal haddress =>
      exact .jump ((hreached _).1 h) hinsn hbranch hlabel (mt (hsub _) hlocal) haddress
    | fall h hinsn hbranch hfalls => exact .fall ((hreached _).1 h) hinsn hbranch hfalls
  · intro h
    cases h with
    | entrance hlabel haddress => exact .entrance (hsub _ hlabel) haddress
    | call h hinsn hcall hlabel haddress =>
      exact .call ((hreached _).2 h) hinsn hcall hlabel haddress
    | behind h hinsn hcall hlabel haddress =>
      exact .behind ((hreached _).2 h) hinsn hcall hlabel haddress
    | jump h hinsn hbranch hlabel hlocal haddress =>
      exact .jump ((hreached _).2 h) hinsn hbranch hlabel
        (fun hroutine => (hharmless _ hroutine hlocal).branch ⟨_, _, h, hinsn, hbranch, hlabel⟩)
        haddress
    | fall h hinsn hbranch hfalls => exact .fall ((hreached _).2 h) hinsn hbranch hfalls

theorem cutBlocks_eq_of_harmless : cutBlocks unit routines = cutBlocks unit own :=
  cutBlocks_congr hfresh hplain
    (fun _ => reached_iff_of_harmless hfresh hplain hsub hcorrected hharmless)
    (fun _ => begins_iff_of_harmless hfresh hplain hsub hcorrected hharmless)

omit hcorrected in
/-- A tail that is no call goes to an own label, or to none of the routine labels. -/
theorem linkedBlock_eq_of_harmless (hcut : cut ∈ cutBlocks unit own) (id : BlockId) :
    linkedBlock unit routines (cutBlocks unit own) id cut =
      linkedBlock unit own (cutBlocks unit own) id cut := by
  obtain ⟨hreached, hget, _⟩ := tail_cutBlocks hfresh hplain hcut
  unfold linkedBlock
  cases hcall : cut.tail.isCall with
  | true => rfl
  | false =>
    cases hlabel : cut.tail.destination.label? with
    | none => rfl
    | some label =>
      have hbranch := Instruction.isBranch_of_label? (natural_tail hfresh hcut) hlabel hcall
      -- a branch to a foreign label is what harmlessness rules out
      have hiff : label ∈ routines ↔ label ∈ own := by
        refine ⟨fun hroutine => ?_, hsub label⟩
        by_contra hforeign
        exact (hharmless label hroutine hforeign).branch ⟨_, _, hreached, hget, hbranch, hlabel⟩
      simp only [Bool.false_eq_true, if_false, hiff]

/-- With the same marks and the same tails the linked graphs are the same. -/
theorem linkedGraph_eq_of_harmless : linkedGraph unit routines = linkedGraph unit own := by
  unfold linkedGraph
  rw [cutBlocks_eq_of_harmless hfresh hplain hsub hcorrected hharmless]
  congr 1
  refine List.ext_getElem? fun id => ?_
  rw [List.getElem?_mapIdx, List.getElem?_mapIdx]
  refine Option.map_congr fun cut hcut => ?_
  exact linkedBlock_eq_of_harmless hfresh hplain hsub hharmless (List.mem_of_getElem? hcut) id

end Harmless

/-! ## Edges into blocks with foreign labels -/

/-- The labels that lead to the beginning of a block are all the same. -/
theorem eq_of_addressOf?_address (hfresh : unit.Fresh) (hcut : cut ∈ cutBlocks unit own)
    (hdefines : cut.first.definesLabel label = true) {other : String}
    (haddress : unit.addressOf? other = some cut.address) : other = label := by
  obtain ⟨insn, hinsn, hdefines'⟩ := hfresh.getElem?_addressOf? haddress
  obtain rfl := Option.some.inj (hinsn.symm.trans (first_cutBlocks hfresh hcut))
  exact Instruction.eq_of_definesLabel hdefines' hdefines

/-- An edge into a block that begins with a foreign label comes from the block right before: calls
go to own labels, and no branch goes to this one. -/
theorem fallthrough_of_foreign (hfresh : unit.Fresh) (hplain : unit.PlainSlots)
    (hunique : unit.UniqueLabels) (hcalls : ∀ label ∈ unit.callTargets, label ∈ own)
    (hcorrected : graph.IsCorrected unit own) (hforeign : label ∉ own)
    (hbranch : ¬ unit.BranchesTo own label)
    (hcut : (cutBlocks unit own)[id]? = some cut) (hdefines : cut.first.definesLabel label = true)
    {other : BlockId} (hedge : id ∈ graph.successors other) :
    ∃ before, (cutBlocks unit own)[other]? = some before ∧ id = other + 1 ∧
      cut.address = before.stop ∧
        graph.block? other = some (linkedBlock unit own (cutBlocks unit own) other before) := by
  obtain ⟨block, hblock⟩ :=
    Option.isSome_iff_exists.mp (Graph.isSome_block?.2 (Graph.lt_size_of_mem_successors hedge))
  rw [Graph.successors_of_block? hblock] at hedge
  obtain ⟨before, hbefore, hcase⟩ := hcorrected.exists_cut hblock
  have hin := List.mem_of_getElem? hbefore
  obtain ⟨hreached, hget, _⟩ := tail_cutBlocks hfresh hplain hin
  cases hcase with
  | @jump called target hcall hcalled htarget =>
    -- the block would begin with the called label, which is an own one
    obtain rfl : id = target := List.mem_singleton.mp hedge
    obtain ⟨_, begun, hbegun, hcalled'⟩ := block?_of_blockDefining? hfresh hplain hunique
      hcorrected.follows hin hcall hcalled htarget
    obtain ⟨copy, hcopy, hsame⟩ := hcorrected.follows id cut hcut
    obtain rfl := Option.some.inj (hbegun.symm.trans hcopy)
    rw [Block.definesLabel_eq_of_plain hsame] at hcalled'
    obtain rfl := Instruction.eq_of_definesLabel hdefines hcalled'
    refine absurd (hcalls label ?_) hforeign
    exact List.mem_filterMap.mpr
      ⟨before.tail, List.mem_filter.mpr ⟨List.mem_of_getElem? hget, hcall⟩, hcalled⟩
  | kept =>
    rcases mem_successors_linkedBlock hedge with
      hnext | ⟨hcall, target, a, htarget, _, haddress, hat⟩
    · rcases fallthrough_cutBlocks hfresh hplain hbefore with
        ⟨heq, _, _, next, hnext', hstop⟩ | ⟨heq, _⟩
      · obtain rfl : id = other + 1 := List.mem_singleton.mp (heq ▸ hnext)
        obtain rfl := Option.some.inj (hcut.symm.trans hnext')
        exact ⟨before, hbefore, rfl, hstop, hblock⟩
      · rw [heq] at hnext
        cases hnext
    · -- a branch would go to the label
      obtain ⟨begun, hbegun, rfl⟩ := block_of_blockAt? hat
      obtain rfl := Option.some.inj (hcut.symm.trans hbegun)
      obtain rfl :=
        eq_of_addressOf?_address hfresh (List.mem_of_getElem? hcut) hdefines haddress
      have hisbranch := Instruction.isBranch_of_label? (natural_tail hfresh hin) htarget hcall
      exact absurd ⟨_, _, hreached, hget, hisbranch, htarget⟩ hbranch

/-! ## Harmless labels leave the routines -/

section Harmless

variable (hfresh : unit.Fresh) (hplain : unit.PlainSlots) (hunique : unit.UniqueLabels)
  (hsub : ∀ label ∈ own, label ∈ routines) (hcalls : ∀ label ∈ unit.callTargets, label ∈ own)
  (hcorrected : graph.IsCorrected unit own)
  (hharmless : ∀ label ∈ routines, label ∉ own →
    unit.Harmless own (graph.partition own).value label)
include hfresh hplain hunique hsub hcalls hcorrected hharmless

/-- No edge leads to a block with a harmless label: the call right before goes to its target. -/
theorem entrance_iff_of_harmless : graph.Entrance routines id ↔ graph.Entrance own id := by
  refine ⟨?_, fun ⟨block, hblock, hcase⟩ => ⟨block, hblock, hcase.imp_right
    fun ⟨label, hlabel, heq⟩ => ⟨label, hsub label hlabel, heq⟩⟩⟩
  rintro ⟨block, hblock, hnone | ⟨label, hlabel, hname⟩⟩
  · exact ⟨block, hblock, .inl hnone⟩
  by_cases hown : label ∈ own
  · exact ⟨block, hblock, .inr ⟨label, hown, hname⟩⟩
  refine ⟨block, hblock, .inl fun other hedge => ?_⟩
  have hforeign := hharmless label hlabel hown
  obtain ⟨cut, hcut, hcase⟩ := hcorrected.exists_cut hblock
  have hdefines : cut.first.definesLabel label = true := by
    rw [← Block.definesLabel_eq_of_plain hcase.plain_eq]
    exact Block.label?_eq_some_iff.1 hname
  obtain ⟨before, hbefore, rfl, hstop, hkept⟩ := fallthrough_of_foreign hfresh hplain hunique hcalls
    hcorrected hown hforeign.branch hcut hdefines hedge
  -- the entry right before is the call that is used as a jump, so that its block is another one
  have hin := List.mem_of_getElem? hbefore
  have hfirst := first_cutBlocks hfresh (List.mem_of_getElem? hcut)
  obtain ⟨b, hb, hsuppressed⟩ := hforeign.definition _ (hunique.addressOf? hfresh hfirst hdefines)
  obtain ⟨id', jump, _, target, hjump, hblock', _, _, _, _, rfl⟩ :=
    (hcorrected.exists_jump_iff hfresh).1 (hcorrected.suppresses_partition_iff.1 hsuppressed)
  have hmem : jump.tail.address ∈ before.addresses := by
    have hpos := before.length_pos
    refine (mem_addresses_iff hfresh hin).2 ⟨?_, by omega⟩
    unfold Block.stop at hstop
    omega
  obtain rfl := eq_of_mem_addresses hfresh hjump hbefore jump.tail_mem_addresses hmem
  have htail := (jump.jumpTo target).tail_mem
  rw [Option.some.inj (hblock'.symm.trans hkept)] at htail
  refine not_suppressed_linkedBlock hfresh (cutBlocks unit own) _ hin _ htail ?_
  rw [← Option.some.inj (hblock'.symm.trans hkept), jump.tail_jumpTo]

theorem partition_eq_of_harmless :
    (graph.partition routines).value = (graph.partition own).value :=
  Graph.partition_congr hcorrected.lt_size fun _ =>
    entrance_iff_of_harmless hfresh hplain hunique hsub hcalls hcorrected hharmless

omit hcorrected hharmless in
/-- Harmless labels of other units make no difference to the routines of this one. -/
theorem value_eq_of_harmless {graphs : List Graph}
    (hvalue : (unit.routines own).run.value = .ok graphs)
    (hharmless : ∀ label ∈ routines, label ∉ own → unit.Harmless own graphs label) :
    (unit.routines routines).run.value = .ok graphs := by
  obtain ⟨whole, hwhole, hcorrected⟩ := exists_corrected hfresh own
  obtain rfl := Except.ok.inj ((value_routines hfresh hwhole).symm.trans hvalue)
  rw [← linkedGraph_eq_of_harmless hfresh hplain hsub hcorrected hharmless] at hwhole
  rw [value_routines hfresh hwhole,
    partition_eq_of_harmless hfresh hplain hunique hsub hcalls hcorrected hharmless]

end Harmless

end Units

end RamOverlay
