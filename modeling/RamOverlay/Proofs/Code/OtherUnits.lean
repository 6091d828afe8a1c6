import RamOverlay.Proofs.Code.Harmless
import RamOverlay.Proofs.Code.LostLoops

/-!
# Other units of a program

The other units of a program change the routines of a unit by their routine labels only.

* **`not_branchesTo_of_value_eq`**: if the routines stay, no branch goes to a foreign label, for it
  would be a forced call, or not, with the labels.
* **`not_mem_successors_of_start`**: and no edge leads to a block with a foreign label, since a
  routine starts there.
* **`behind_of_no_predecessor`**: control comes there all the same, so it does from a call that is
  used as a jump.
* **`routines_eq_alone_iff`**: hence the other units make no difference if and only if their routine
  labels are harmless; in particular if the unit has none of them (`routines_eq_of_not_mem_names`).
-/

namespace RamOverlay

open Discovery

section Units

variable {unit : SourceUnit} {own routines : RoutineLabels} {graph : Graph} {id : BlockId}
  {cut : Block} {label : String}

/-! ## Branches -/

/-- The tail of a block that branches to a label does so when it is linked. -/
theorem branches_tail_linkedBlock (hfresh : unit.Fresh) (hcut : cut ∈ cutBlocks unit own)
    (hbranch : cut.tail.isBranch = true) (hlabel : cut.tail.destination.label? = some label) :
    let tail := (linkedBlock unit own (cutBlocks unit own) id cut).tail
    tail.isBranch = true ∧ tail.callClass ≠ .suppressed ∧
      tail.destination.label? = some label := by
  have hnatural := natural_tail hfresh hcut
  have hclass := not_suppressed_linkedBlock hfresh (cutBlocks unit own) id hcut _ (Block.tail_mem _)
  rcases tail_linkedBlock (cutBlocks unit own) id hnatural with heq | ⟨_, heq⟩
  · exact ⟨heq ▸ hbranch, hclass, heq ▸ hlabel⟩
  · refine ⟨?_, hclass, ?_⟩
    · rwa [heq, Instruction.isBranch_forced hnatural]
    · rwa [heq, Instruction.destination_forced hnatural]

/-- If a label of another unit changes nothing, no branch goes to it. -/
theorem not_branchesTo_of_value_eq (hfresh : unit.Fresh) (hplain : unit.PlainSlots)
    (hunique : unit.UniqueLabels) {graphs : List Graph}
    (hvalue : (unit.routines own).run.value = .ok graphs)
    (hvalue' : (unit.routines routines).run.value = .ok graphs) (hlabel : label ∈ routines)
    (hforeign : label ∉ own) : ¬ unit.BranchesTo own label := by
  rintro ⟨a, insn, hreached, hinsn, hbranch, hdestination⟩
  obtain ⟨whole, hwhole, hcorrected⟩ := exists_corrected hfresh own
  obtain rfl := Except.ok.inj ((value_routines hfresh hwhole).symm.trans hvalue)
  obtain ⟨id, cut, hcut, hmem⟩ := hreached.exists_liesIn hfresh
  have hin := List.mem_of_getElem? hcut
  have hnatural := natural_tail hfresh hin
  obtain rfl := eq_tail_of_isBranch hfresh hplain hin hreached hmem hinsn hbranch
  obtain rfl := Option.some.inj (hinsn.symm.trans (tail_cutBlocks hfresh hplain hin).2.1)
  obtain ⟨block, hblock, hcase⟩ := hcorrected.corrected id cut hcut
  have htail : block.tail.isBranch = true ∧ block.tail.callClass ≠ .suppressed ∧
      block.tail.destination.label? = some label := by
    cases hcase with
    | jump hcall =>
      rw [Instruction.isBranch_of_isCall hcall hnatural] at hbranch
      cases hbranch
    | kept => exact branches_tail_linkedBlock hfresh hin hbranch hdestination
  obtain ⟨part, hpart, place, copy, hcopy, hisbranch, hclass, hcopied⟩ :=
    (Graph.exists_block_partition_iff (p := fun block => block.tail.isBranch = true ∧
      block.tail.callClass ≠ .suppressed ∧ block.tail.destination.label? = some label)
        hcorrected.lt_size fun _ _ => Iff.rfl).2 ⟨id, block, hblock, htail⟩
  -- the class of the tail tells whether the label is one of the routine labels
  obtain ⟨_, hgraphs, hedges⟩ := routines_edges hfresh hunique hplain own
  obtain rfl := Except.ok.inj (hvalue.symm.trans hgraphs)
  obtain ⟨_, hgraphs', hedges'⟩ := routines_edges hfresh hunique hplain routines
  obtain rfl := Except.ok.inj (hvalue'.symm.trans hgraphs')
  obtain ⟨_, _, hedge⟩ := hedges part hpart place copy hcopy
  obtain ⟨_, _, hedge'⟩ := hedges' part hpart place copy hcopy
  have hforced := hedge'.forcedIff.2 ⟨hclass, hisbranch, label, hlabel, hcopied⟩
  obtain ⟨_, _, other, hown, hother⟩ := hedge.forcedIff.1 hforced
  obtain rfl := Option.some.inj (hcopied.symm.trans hother)
  exact hforeign hown

/-! ## Control that comes to a foreign label -/

/-- What stands behind a jump that was a call stands behind a suppressed call of the unit. -/
theorem Graph.IsCorrected.suppresses_of_behindJump (h : graph.IsCorrected unit own)
    (hfresh : unit.Fresh) (hplain : unit.PlainSlots) {block : Block}
    (hbehind : BehindJump [graph] block) :
    ∃ b, block.address = b + 1 ∧ Suppresses (graph.partition own).value b := by
  obtain ⟨_, hwhole, id, other, hother, hclass, haddress⟩ := hbehind
  obtain rfl := List.mem_singleton.mp hwhole
  obtain ⟨jump, hjump, hcase⟩ := h.exists_cut hother
  have hin := List.mem_of_getElem? hjump
  cases hcase with
  | kept =>
    exact absurd hclass (not_suppressed_linkedBlock hfresh _ id hin _ (Block.tail_mem _))
  | @jump called target hcall hcalled htarget hjoined =>
    -- the call is the last entry, so what follows it is behind its block
    refine ⟨jump.tail.address, ?_, h.suppresses_partition_iff.2 ((h.exists_jump_iff hfresh).2
      ⟨id, jump, called, target, hjump, hother, hcall, hcalled, htarget, hjoined, rfl⟩)⟩
    rw [haddress, Block.last_address_eq_of_plain (jump.plain_jumpTo target),
      last_address_cutBlocks hfresh hin, stop_of_isCall hfresh hplain hin hcall]

/-- A block that begins with a foreign label, and to which no edge leads, comes right behind a call
that is used as a jump: else control would come there from the entry before. -/
theorem behind_of_no_predecessor (hfresh : unit.Fresh) (hplain : unit.PlainSlots)
    (hcalls : ∀ label ∈ unit.callTargets, label ∈ own) (hcorrected : graph.IsCorrected unit own)
    (hforeign : label ∉ own) (hbranch : ¬ unit.BranchesTo own label)
    (hcut : (cutBlocks unit own)[id]? = some cut) (hdefines : cut.first.definesLabel label = true)
    (hnone : ∀ other, id ∉ graph.successors other) :
    ∃ b, cut.address = b + 1 ∧ Suppresses (graph.partition own).value b := by
  have hin := List.mem_of_getElem? hcut
  have hname : ∀ {other}, unit.addressOf? other = some cut.address → other = label :=
    fun haddress => eq_of_addressOf?_address hfresh hin hdefines haddress
  have hflow : ∀ {b}, unit.Reached own b → unit.Flows own b cut.address → b < cut.address →
      ∃ b, cut.address = b + 1 ∧ Suppresses (graph.partition own).value b := by
    intro b hb hflows hlt
    obtain ⟨before, hbefore⟩ := hb.exists_liesIn hfresh
    rcases edge_of_flows hfresh hplain hb hflows hbefore ⟨cut, hcut, List.mem_cons_self⟩ with
      rfl | hedge
    · obtain ⟨cut', hcut', hmem⟩ := hbefore
      obtain rfl := Option.some.inj (hcut.symm.trans hcut')
      exact absurd hlt (Nat.not_lt.mpr ((mem_addresses_iff hfresh hin).1 hmem).1)
    · rcases hcorrected.edge_or_behind hfresh hplain hedge with hkept | ⟨block, hblock, hbehind⟩
      · exact absurd hkept (hnone before)
      · obtain ⟨copy, hcopy, hsame⟩ := hcorrected.follows id cut hcut
        obtain rfl := Option.some.inj (hblock.symm.trans hcopy)
        rw [← Block.address_eq_of_plain hsame]
        exact hcorrected.suppresses_of_behindJump hfresh hplain hbehind
  -- by the way on which control comes to the first entry of the block
  have hreached := reached_first hfresh hplain hin
  generalize haddress : cut.address = a at *
  cases hreached with
  | entrance hown hlabel => exact absurd (hname hlabel ▸ hown) hforeign
  | call _ hinsn hcall hcalled hlabel =>
    refine absurd (hcalls label ?_) hforeign
    exact List.mem_filterMap.mpr
      ⟨_, List.mem_filter.mpr ⟨List.mem_of_getElem? hinsn, hcall⟩, hname hlabel ▸ hcalled⟩
  | jump h hinsn hisbranch hdestination _ hlabel =>
    exact absurd ⟨_, _, h, hinsn, hisbranch, hname hlabel ▸ hdestination⟩ hbranch
  | next h hinsn hisbranch hlt => exact hflow h (.next hinsn hisbranch hlt) (Nat.lt_succ_self _)
  | fall h hinsn hisbranch hfalls hlt =>
    refine hflow h (.fall hinsn hisbranch hfalls hlt) ?_
    unfold SourceUnit.afterBranch
    omega

/-! ## Routines that start at a foreign label -/

/-- A block of a routine is one of those that were cut, but for its edges and its call class. -/
theorem Graph.IsCorrected.exists_cut_of_isPart (h : graph.IsCorrected unit own) {part : Graph}
    {ids : List BlockId} {place : Nat} {block : Block} (hpart : graph.IsPart ids part)
    (hblock : part.block? place = some block) :
    ∃ id cut, ids[place]? = some id ∧ (cutBlocks unit own)[id]? = some cut ∧
      block.plain = cut.plain := by
  obtain ⟨id, hid⟩ := hpart.exists_id (Graph.isSome_block?.1 (by rw [hblock]; rfl))
  obtain ⟨original, horiginal, hrenumbered⟩ := hpart.block place id hid
  obtain rfl := Option.some.inj (hblock.symm.trans hrenumbered)
  obtain ⟨cut, hcut, hcase⟩ := h.exists_cut horiginal
  exact ⟨id, cut, hid, hcut, hcase.plain_eq⟩

section Starts

variable (hfresh : unit.Fresh) (hplain : unit.PlainSlots) (hunique : unit.UniqueLabels)
  (hcalls : ∀ label ∈ unit.callTargets, label ∈ own) (hcorrected : graph.IsCorrected unit own)
  (hbranch : ∀ label ∈ routines, label ∉ own → ¬ unit.BranchesTo own label)
  {part : Graph} {number place : Nat}
  (hpart : graph.IsPart (Graph.members graph.components number) part)
include hfresh hplain hunique hcalls hcorrected hbranch hpart

/-- A block that only a foreign label makes an entrance of its routine is not its first one. -/
theorem exists_before_of_entrance
    (hid : (Graph.members graph.components number)[place]? = some id)
    (hentrance : part.Entrance routines place) (hno : ¬ part.Entrance own place) :
    ∃ other ∈ Graph.members graph.components number, id = other + 1 := by
  obtain ⟨copy, hcopy, hcase⟩ := hentrance
  -- it has a block before it, or it would be an entrance without the label
  obtain ⟨p, hp⟩ : ∃ p, place ∈ part.successors p := by
    by_contra hnone
    exact hno ⟨copy, hcopy, .inl (not_exists.mp hnone)⟩
  obtain ⟨label, hlabel, hname⟩ := hcase.resolve_left fun hnone => hnone p hp
  have hforeign : label ∉ own := fun hown => hno ⟨copy, hcopy, .inr ⟨label, hown, hname⟩⟩
  obtain ⟨other, hother⟩ := hpart.exists_id (Graph.lt_size_of_mem_successors hp)
  obtain ⟨id', cut, hid', hcut, hsame⟩ := hcorrected.exists_cut_of_isPart hpart hcopy
  obtain rfl := Option.some.inj (hid.symm.trans hid')
  have hdefines := Block.label?_eq_some_iff.1 hname
  rw [Block.definesLabel_eq_of_plain hsame] at hdefines
  -- no branch goes to the label, so the edge comes from the block right before
  obtain ⟨_, _, heq, _⟩ := fallthrough_of_foreign hfresh hplain hunique hcalls hcorrected hforeign
    (hbranch label hlabel hforeign) hcut hdefines ((hpart.mem_successors_iff hother hid).1 hp)
  exact ⟨other, List.mem_of_getElem? hother, heq⟩

/-- If a routine starts at a block with a foreign label, with the labels and without them, then no
edge leads to the block. Without the labels the routine could only start everywhere, and then all
its blocks would be entrances by foreign labels, the first one too. -/
theorem not_mem_successors_of_start
    (hstarts : ∀ start, start ∈ part.starts ↔ start < part.size ∧
      (part.Entrance own start ∨ ∀ other, ¬ part.Entrance own other))
    (hstarts' : ∀ start, start ∈ part.starts ↔ start < part.size ∧
      (part.Entrance routines start ∨ ∀ other, ¬ part.Entrance routines other))
    (hplace : place ∈ part.starts) {block : Block} (hblock : part.block? place = some block)
    (hlabel : label ∈ routines) (hforeign : label ∉ own)
    (hdefines : block.first.definesLabel label = true) :
    ∀ other, place ∉ part.successors other := by
  rcases ((hstarts place).1 hplace).2 with ⟨copy, hcopy, hnone | ⟨named, hown, hname⟩⟩ | hnone
  · exact hnone
  · obtain rfl := Option.some.inj (hblock.symm.trans hcopy)
    obtain rfl := Instruction.eq_of_definesLabel hdefines (Block.label?_eq_some_iff.1 hname)
    exact absurd hown hforeign
  have hentrance : part.Entrance routines place :=
    ⟨block, hblock, .inr ⟨label, hlabel, Block.label?_eq_some_iff.2 hdefines⟩⟩
  have hall : ∀ start < part.size, part.Entrance routines start := by
    intro start hlt
    have hstart := (hstarts start).2 ⟨hlt, .inr hnone⟩
    exact ((hstarts' start).1 hstart).2.resolve_right fun h => h place hentrance
  -- then each block of the routine has another one right before it
  have hbefore : ∀ id ∈ Graph.members graph.components number,
      ∃ other ∈ Graph.members graph.components number, id = other + 1 := by
    intro id hmem
    have hlt := List.idxOf_lt_length_of_mem hmem
    rw [← hpart.size] at hlt
    exact exists_before_of_entrance hfresh hplain hunique hcalls hcorrected hbranch hpart
      (List.getElem?_idxOf hmem) (hall _ hlt) (hnone _)
  have hempty : ∀ id, id ∉ Graph.members graph.components number := by
    intro id
    induction id with
    | zero =>
      intro hmem
      obtain ⟨_, _, heq⟩ := hbefore 0 hmem
      cases heq
    | succ id ih =>
      intro hmem
      obtain ⟨other, hother, heq⟩ := hbefore (id + 1) hmem
      cases heq
      exact ih hother
  obtain ⟨id, hid⟩ := hpart.exists_id hentrance.lt_size
  exact absurd (List.mem_of_getElem? hid) (hempty id)

end Starts

/-- If the foreign labels leave the routines, they are harmless. -/
theorem harmless_of_value_eq (hfresh : unit.Fresh) (hplain : unit.PlainSlots)
    (hunique : unit.UniqueLabels) (hcalls : ∀ label ∈ unit.callTargets, label ∈ own)
    {graphs : List Graph} (hvalue : (unit.routines own).run.value = .ok graphs)
    (hvalue' : (unit.routines routines).run.value = .ok graphs) (hlabel : label ∈ routines)
    (hforeign : label ∉ own) : unit.Harmless own graphs label := by
  have hbranch : ∀ label ∈ routines, label ∉ own → ¬ unit.BranchesTo own label :=
    fun _ => not_branchesTo_of_value_eq hfresh hplain hunique hvalue hvalue'
  refine ⟨hbranch label hlabel hforeign, fun a haddress => ?_⟩
  obtain ⟨whole, hwhole, hcorrected⟩ := exists_corrected hfresh own
  obtain ⟨whole', hwhole', hcorrected'⟩ := exists_corrected hfresh routines
  obtain rfl := Except.ok.inj ((value_routines hfresh hwhole).symm.trans hvalue)
  have heq := Except.ok.inj ((value_routines hfresh hwhole').symm.trans hvalue')
  obtain ⟨part, hmem', place, hplace, block, hblock, rfl, hdefines⟩ :=
    hcorrected'.exists_start hfresh hplain hlabel haddress
  -- the routine that starts at the label is one of those without the foreign labels
  have hmem := heq ▸ hmem'
  obtain ⟨number, rfl⟩ := Graph.eq_routine_of_mem_partition hmem
  have hpart := Graph.isPart_routine hcorrected.lt_size own number
  have hnone := not_mem_successors_of_start hfresh hplain hunique hcalls hcorrected hbranch hpart
    (fun _ => Graph.mem_starts_of_mem_partition hcorrected.lt_size hmem)
    (fun _ => Graph.mem_starts_of_mem_partition hcorrected'.lt_size hmem')
    hplace hblock hlabel hforeign hdefines
  -- nor does an edge lead to the block in the whole graph
  obtain ⟨id, cut, hid, hcut, hsame⟩ := hcorrected.exists_cut_of_isPart hpart hblock
  rw [Block.definesLabel_eq_of_plain hsame] at hdefines
  have hnone' : ∀ other, id ∉ whole.successors other := by
    intro other hother
    have hmem := hpart.backward id (List.mem_of_getElem? hid) other hother
    exact hnone _ ((hpart.mem_successors_iff (List.getElem?_idxOf hmem) hid).2 hother)
  obtain ⟨b, hb, hsuppressed⟩ := behind_of_no_predecessor hfresh hplain hcalls hcorrected hforeign
    (hbranch label hlabel hforeign) hcut hdefines hnone'
  exact ⟨b, (Block.address_eq_of_plain hsame).trans hb, hsuppressed⟩

end Units

/-! ## The units of a program -/

section Program

variable {units : List SourceUnit} {unit : SourceUnit} {label : String}

theorem mem_routineLabels_iff :
    label ∈ routineLabels units ↔ ∃ unit ∈ units, label ∈ unit.routineLabels := by
  rw [routineLabels, Ascending.mem_ofList, List.mem_flatMap]

theorem mem_routineLabels_alone :
    label ∈ routineLabels [unit] ↔ label ∈ unit.routineLabels := by
  rw [mem_routineLabels_iff]
  simp

/-- All that a unit calls is among its own routine labels. -/
theorem mem_routineLabels_of_mem_callTargets (h : label ∈ unit.callTargets) :
    label ∈ routineLabels [unit] :=
  mem_routineLabels_alone.2 (List.mem_append_right _ h)

theorem routineLabels_alone_subset (hunit : unit ∈ units) :
    ∀ label ∈ routineLabels [unit], label ∈ routineLabels units := fun _ hlabel =>
  mem_routineLabels_iff.2 ⟨unit, hunit, mem_routineLabels_alone.1 hlabel⟩

/-- The routines of a unit are the same in a program as alone, if and only if the routine labels of
the other units are harmless in it. -/
theorem routines_eq_alone_iff (hunit : unit ∈ units) (hfresh : unit.Fresh)
    (hplain : unit.PlainSlots) (hunique : unit.UniqueLabels) :
    ∃ graphs, (unit.routines (routineLabels [unit])).run.value = .ok graphs ∧
      ((unit.routines (routineLabels units)).run.value = .ok graphs ↔
        ∀ other ∈ units, ∀ label ∈ other.routineLabels, label ∉ unit.routineLabels →
          unit.Harmless (routineLabels [unit]) graphs label) := by
  have hcalls : ∀ label ∈ unit.callTargets, label ∈ routineLabels [unit] :=
    fun _ => mem_routineLabels_of_mem_callTargets
  obtain ⟨whole, hwhole, _⟩ := exists_corrected hfresh (routineLabels [unit])
  have hvalue := value_routines hfresh hwhole
  refine ⟨_, hvalue, fun hvalue' other hother label hlabel hforeign => ?_, fun h => ?_⟩
  · exact harmless_of_value_eq hfresh hplain hunique hcalls hvalue hvalue'
      (mem_routineLabels_iff.2 ⟨other, hother, hlabel⟩) (mt mem_routineLabels_alone.1 hforeign)
  · refine value_eq_of_harmless hfresh hplain hunique (routineLabels_alone_subset hunit) hcalls
      hvalue fun label hlabel hforeign => ?_
    obtain ⟨other, hother, hlabel⟩ := mem_routineLabels_iff.1 hlabel
    exact h other hother label hlabel (mt mem_routineLabels_alone.2 hforeign)

/-- A function that skips an instruction. -/
def skipper : SourceUnit :=
  (SourceUnit.parse "a.s"
    ("\t.type\tf, %function\nf:\n\tcmp\tr0, #0\n\tbeq\t.L2\n\tadds\tr0, r0, #1\n.L2:\n"
      ++ "\tbx\tlr\n")).value

/-- A function that jumps to its end by a call. -/
def leaper : SourceUnit :=
  (SourceUnit.parse "b.s" "\t.type\tg, %function\ng:\n\tbl\t.L2\n.L2:\n\tbx\tlr\n").value

/-- The other unit has a routine, but `skipper` mentions none of its labels. -/
theorem routines_eq_alone_iff_skipper :
    skipper ∈ [skipper, leaper] ∧ skipper.Fresh ∧ skipper.PlainSlots ∧ skipper.UniqueLabels ∧
      ∃ graphs, (skipper.routines (routineLabels [skipper])).run.value = .ok graphs ∧
        ((skipper.routines (routineLabels [skipper, leaper])).run.value = .ok graphs ↔
          ∀ other ∈ [skipper, leaper], ∀ label ∈ other.routineLabels,
            label ∉ skipper.routineLabels →
              skipper.Harmless (routineLabels [skipper]) graphs label) := by
  have hmem : skipper ∈ [skipper, leaper] := List.mem_cons_self
  have hfresh : skipper.Fresh := SourceUnit.fresh_parse _ _
  have hplain : skipper.PlainSlots := SourceUnit.plainSlots_parse _ _
  have hunique : skipper.UniqueLabels := by decide +kernel
  exact ⟨hmem, hfresh, hplain, hunique, routines_eq_alone_iff hmem hfresh hplain hunique⟩

/-- The labels that the unit declares, defines or goes to. -/
def SourceUnit.names (unit : SourceUnit) : List String :=
  unit.functions ++ unit.instructions.flatMap fun insn =>
    insn.label?.toList ++ insn.destination.label?.toList

/-- The local label of the one function is a routine label by the call in the other one: the branch
to it leaves the routine, and another routine starts there. -/
theorem routines_ne_skipper :
    (∀ label ∈ skipper.names, label ∈ leaper.names → ".L".isPrefixOf label = true) ∧
      (skipper.routines (routineLabels [skipper, leaper])).run.value ≠
        (skipper.routines (routineLabels [skipper])).run.value := by
  have hstarts : (skipper.routines (routineLabels [skipper])).run.value.toOption.map
      (fun graphs => graphs.map (·.starts)) = some [[0]] := by decide +kernel
  have hstarts' : (skipper.routines (routineLabels [skipper, leaper])).run.value.toOption.map
      (fun graphs => graphs.map (·.starts)) = some [[0, 2]] := by decide +kernel
  refine ⟨by decide +kernel, fun heq => ?_⟩
  rw [heq, hstarts] at hstarts'
  revert hstarts'
  decide

/-- Other units make no difference to a unit that has none of their routine labels but its own. -/
theorem routines_eq_of_not_mem_names (hunit : unit ∈ units) (hfresh : unit.Fresh)
    (hplain : unit.PlainSlots) (hunique : unit.UniqueLabels)
    (hapart : ∀ other ∈ units, ∀ label ∈ other.routineLabels, label ∉ unit.routineLabels →
      label ∉ unit.names) :
    (unit.routines (routineLabels units)).run.value =
      (unit.routines (routineLabels [unit])).run.value := by
  obtain ⟨whole, hwhole, _⟩ := exists_corrected hfresh (routineLabels [unit])
  have hvalue := value_routines hfresh hwhole
  rw [hvalue]
  refine value_eq_of_harmless hfresh hplain hunique (routineLabels_alone_subset hunit)
    (fun _ => mem_routineLabels_of_mem_callTargets) hvalue fun label hlabel hforeign => ?_
  obtain ⟨other, hother, hlabel⟩ := mem_routineLabels_iff.1 hlabel
  have hno := hapart other hother label hlabel (mt mem_routineLabels_alone.2 hforeign)
  -- no entry has the foreign label, as its own or as its destination
  have hnames : ∀ (a : Nat) (insn : Instruction), unit.instructions[a]? = some insn →
      label ∉ insn.label?.toList ++ insn.destination.label?.toList := fun a insn hinsn hmem =>
    hno (List.mem_append_right _ (List.mem_flatMap.mpr ⟨insn, List.mem_of_getElem? hinsn, hmem⟩))
  refine ⟨fun ⟨a, insn, _, hinsn, _, hdestination⟩ => hnames a insn hinsn ?_, fun a haddress => ?_⟩
  · exact List.mem_append_right _ (Option.mem_toList.mpr hdestination)
  · obtain ⟨insn, hinsn, hdefines⟩ := hfresh.getElem?_addressOf? haddress
    have hname := beq_iff_eq.mp (Bool.and_eq_true_iff.mp hdefines).2
    exact absurd (List.mem_append_left _ (Option.mem_toList.mpr hname)) (hnames a insn hinsn)

end Program

end RamOverlay
