import RamOverlay.Proofs.Code.Suppressed
import RamOverlay.Proofs.Code.Tails

/-!
# Edges are the control flow of the tails

* **`Graph.Edges`**: what the successors of a block have to be.
* **`edges_of_linked`, `edges_of_suppressed`**: so they are after linking, and after a call is
  suppressed, in any graph whose blocks have the entries of the unit's.
-/

namespace RamOverlay

open Discovery

/-! ## Reclassified entries -/

namespace Instruction

variable {insn : Instruction} (hclass : insn.callClass = .natural)
include hclass

theorem isBranch_forced : ({ insn with callClass := .forced } : Instruction).isBranch =
    insn.isBranch := by
  unfold isBranch neverFallsThrough
  rw [hclass]
  rfl

theorem isUnconditional_forced :
    ({ insn with callClass := .forced } : Instruction).isUnconditional =
      insn.isUnconditional := by
  unfold isUnconditional
  rw [isBranch_forced hclass]
  unfold neverFallsThrough
  rw [hclass]
  rfl

theorem destination_forced : ({ insn with callClass := .forced } : Instruction).destination =
    insn.destination := by
  unfold destination
  rw [isBranch_forced hclass]
  rfl

/-- A tail with a destination is a branch or a call. -/
theorem isBranch_of_label? {label : String} (hlabel : insn.destination.label? = some label)
    (hcall : insn.isCall = false) : insn.isBranch = true := by
  by_contra hbranch
  have hnatural : insn.isNaturalCall = false := by
    rw [isCall, hclass] at hcall
    simpa using hcall
  rw [destination, Bool.eq_false_iff.mpr hbranch, hnatural] at hlabel
  cases hlabel

/-- With a destination, it is one or the other. -/
theorem isCall_eq_false_iff_isBranch {label : String}
    (hlabel : insn.destination.label? = some label) :
    insn.isCall = false ↔ insn.isBranch = true := by
  refine ⟨isBranch_of_label? hclass hlabel, fun hbranch => ?_⟩
  by_contra hcall
  rw [isBranch_of_isCall (by simpa using hcall) hclass] at hbranch
  exact Bool.false_ne_true hbranch

omit hclass in
/-- A suppressed call goes where the call went. -/
theorem destination_suppressed (hcall : insn.isCall = true) :
    ({ insn with callClass := .suppressed } : Instruction).destination = insn.destination := by
  have hnatural : insn.isNaturalCall = true := (Bool.and_eq_true_iff.mp hcall).1
  have hnatural' : ({ insn with callClass := .suppressed } : Instruction).isNaturalCall = true :=
    hnatural
  unfold destination
  rw [hnatural, hnatural', Bool.not_true, Bool.and_false, Bool.and_false]
  rfl

end Instruction

/-! ## Edges -/

/-- `next?` and `taken?` are the successors of a block, the places where control goes after its tail
if a branch is not taken and if it is. A branch to a routine label is a forced call. -/
structure Graph.Edges (graph : Graph) (unit : SourceUnit) (routines : RoutineLabels) (block : Block)
    (next? taken? : Option BlockId) : Prop where
  members : ∀ successor, successor ∈ block.successors ↔
    next? = some successor ∨ taken? = some successor
  nodup : block.successors.Nodup
  nextFirst : ∀ next, next? = some next → block.successors.head? = some next
  nextIff : next?.isSome = true ↔
    block.tail.isUnconditional = false ∧ block.last.address + 1 < unit.instructions.length
  nextBlock : ∀ next, next? = some next →
    ∃ other, graph.block? next = some other ∧ other.address = block.last.address + 1
  takenIff : taken?.isSome = true ↔ block.tail.isBranch = true ∧ ∃ label,
    block.tail.destination.label? = some label ∧ (unit.addressOf? label).isSome = true ∧
      (label ∉ routines ∨ block.tail.callClass = .suppressed)
  takenBlock : ∀ taken, taken? = some taken → ∃ other label, graph.block? taken = some other ∧
    block.tail.destination.label? = some label ∧ other.first.definesLabel label = true
  forcedIff : block.tail.callClass = .forced ↔ block.tail.callClass ≠ .suppressed ∧
    block.tail.isBranch = true ∧ ∃ label ∈ routines, block.tail.destination.label? = some label

section Edges

variable {unit : SourceUnit} {routines : RoutineLabels} {cut block : Block} {id : BlockId}
  {graph : Graph}

/-- The blocks of the graph have the entries of the unit's. -/
def Graph.Follows (graph : Graph) (unit : SourceUnit) (routines : RoutineLabels) : Prop :=
  ∀ (id : BlockId) (cut : Block), (cutBlocks unit routines)[id]? = some cut →
    ∃ block, graph.block? id = some block ∧ block.plain = cut.plain

/-- A block stops behind its last entry. -/
theorem last_address_cutBlocks (hfresh : unit.Fresh) (hcut : cut ∈ cutBlocks unit routines) :
    cut.last.address + 1 = cut.stop := by
  have hlast := Block.getLast?_addresses cut
  have hpos := cut.length_pos
  rw [(cutOut_cutBlocks hfresh hcut).addresses_eq hfresh.address, List.getLast?_range',
    if_neg (Nat.ne_of_gt hpos)] at hlast
  have haddress := Option.some.inj hlast
  unfold Block.stop
  omega

/-- The list of the next block alone: its members, that there are none twice, and its head. -/
theorem members_toList (next? : Option BlockId) :
    (∀ successor, successor ∈ next?.toList ↔ next? = some successor) ∧ next?.toList.Nodup ∧
      ∀ next, next? = some next → next?.toList.head? = some next := by
  cases next? with
  | none => exact ⟨by simp, List.nodup_nil, by simp⟩
  | some next => exact ⟨by simp [eq_comm], List.nodup_singleton next, by simp⟩

/-- The same with a target added: it comes last, and not a second time. -/
theorem members_addSuccessor (next? : Option BlockId) (target : BlockId) :
    (∀ successor, successor ∈ addSuccessor next?.toList target ↔
        next? = some successor ∨ target = successor) ∧
      (addSuccessor next?.toList target).Nodup ∧
        ∀ next, next? = some next → (addSuccessor next?.toList target).head? = some next := by
  cases next? with
  | none => exact ⟨by simp [addSuccessor, eq_comm], by simp [addSuccessor], by simp⟩
  | some next =>
    unfold addSuccessor
    by_cases heq : target = next
    · simp [heq, eq_comm]
    · simp [heq, Ne.symm heq, eq_comm]

/-- The fallthrough successor is the block right behind. -/
theorem next_of_fallthrough (hfresh : unit.Fresh) (hplain : unit.PlainSlots)
    (hfollows : graph.Follows unit routines) (hcut : (cutBlocks unit routines)[id]? = some cut) :
    ∃ next? : Option BlockId,
      fallthrough (cutBlocks unit routines).length id cut.tail = next?.toList ∧
      (next?.isSome = true ↔
        cut.tail.isUnconditional = false ∧ cut.last.address + 1 < unit.instructions.length) ∧
      ∀ next, next? = some next →
        ∃ other, graph.block? next = some other ∧ other.address = cut.last.address + 1 := by
  rw [last_address_cutBlocks hfresh (List.mem_of_getElem? hcut)]
  rcases fallthrough_cutBlocks hfresh hplain hcut with
    ⟨heq, hfalls, hlt, next, hnext, haddress⟩ | ⟨heq, hnot⟩
  · refine ⟨some (id + 1), heq, by simp [hfalls, hlt], fun next' hnext' => ?_⟩
    cases hnext'
    -- the next block begins where this one stops
    obtain ⟨other, hother, hsame⟩ := hfollows (id + 1) next hnext
    exact ⟨other, hother, (Block.address_eq_of_plain hsame).trans haddress⟩
  · exact ⟨none, heq, by simpa using hnot, by simp⟩

/-- A block with the entries of the unit's block has the right edges if its taken successor and
its class are right. -/
theorem edges_of_plain {next? taken? : Option BlockId} (hsame : block.plain = cut.plain)
    (hfalls : block.tail.isUnconditional = cut.tail.isUnconditional)
    (hsuccessors : block.successors = match taken? with
      | none => next?.toList
      | some target => addSuccessor next?.toList target)
    (hiff : next?.isSome = true ↔
      cut.tail.isUnconditional = false ∧ cut.last.address + 1 < unit.instructions.length)
    (hnext : ∀ next, next? = some next →
      ∃ other, graph.block? next = some other ∧ other.address = cut.last.address + 1)
    (htakenIff : taken?.isSome = true ↔ block.tail.isBranch = true ∧ ∃ label,
      block.tail.destination.label? = some label ∧ (unit.addressOf? label).isSome = true ∧
        (label ∉ routines ∨ block.tail.callClass = .suppressed))
    (htaken : ∀ taken, taken? = some taken → ∃ other label, graph.block? taken = some other ∧
      block.tail.destination.label? = some label ∧ other.first.definesLabel label = true)
    (hforced : block.tail.callClass = .forced ↔ block.tail.callClass ≠ .suppressed ∧
      block.tail.isBranch = true ∧ ∃ label ∈ routines,
        block.tail.destination.label? = some label) :
    graph.Edges unit routines block next? taken? := by
  have hlast := Block.last_address_eq_of_plain hsame
  -- the successors are those two, the next block first
  have hall : (∀ successor, successor ∈ block.successors ↔
      next? = some successor ∨ taken? = some successor) ∧ block.successors.Nodup ∧
        ∀ next, next? = some next → block.successors.head? = some next := by
    cases taken? with
    | none =>
      rw [hsuccessors]
      simpa using members_toList next?
    | some target =>
      rw [hsuccessors]
      simpa using members_addSuccessor next? target
  obtain ⟨hmembers, hnodup, hfirst⟩ := hall
  refine ⟨hmembers, hnodup, hfirst, ?_, ?_, htakenIff, htaken, hforced⟩
  · rw [hfalls, hlast]
    exact hiff
  · rw [hlast]
    exact hnext

/-- A block whose tail is as it was read has the right edges if the tail does not branch to a
routine, and its taken successor is the block of the destination. -/
theorem edges_of_natural {next? taken? : Option BlockId} {successors : List BlockId}
    (hnatural : cut.tail.callClass = .natural)
    (hlocal : ∀ label, cut.tail.isBranch = true → cut.tail.destination.label? = some label →
      label ∉ routines)
    (hsuccessors : successors = match taken? with
      | none => next?.toList
      | some target => addSuccessor next?.toList target)
    (hiff : next?.isSome = true ↔
      cut.tail.isUnconditional = false ∧ cut.last.address + 1 < unit.instructions.length)
    (hnext : ∀ next, next? = some next →
      ∃ other, graph.block? next = some other ∧ other.address = cut.last.address + 1)
    (htakenIff : taken?.isSome = true ↔ cut.tail.isBranch = true ∧ ∃ label,
      cut.tail.destination.label? = some label ∧ (unit.addressOf? label).isSome = true)
    (htaken : ∀ taken, taken? = some taken → ∃ other label, graph.block? taken = some other ∧
      cut.tail.destination.label? = some label ∧ other.first.definesLabel label = true) :
    graph.Edges unit routines { cut with successors := successors } next? taken? := by
  refine edges_of_plain rfl rfl hsuccessors hiff hnext ?_ htaken ?_
  · refine htakenIff.trans (and_congr_right fun hbranch => exists_congr fun label => ?_)
    exact and_congr_right fun hlabel =>
      (and_iff_left (Or.inl (hlocal label hbranch hlabel))).symm
  · -- it is not forced, and need not be
    refine iff_of_false (fun hforced => ?_) ?_
    · cases hnatural.symm.trans hforced
    · rintro ⟨_, hbranch, label, hroutine, hlabel⟩
      exact hlocal label hbranch hlabel hroutine

/-- A block that becomes a forced call has no edge but the one to the next block. -/
theorem edges_of_forced {next? : Option BlockId} {successors : List BlockId} {label : String}
    (hsuccessors : successors = next?.toList) (hnatural : cut.tail.callClass = .natural)
    (hcall : cut.tail.isCall = false) (hlabel : cut.tail.destination.label? = some label)
    (hroutine : label ∈ routines)
    (hiff : next?.isSome = true ↔
      cut.tail.isUnconditional = false ∧ cut.last.address + 1 < unit.instructions.length)
    (hnext : ∀ next, next? = some next →
      ∃ other, graph.block? next = some other ∧ other.address = cut.last.address + 1) :
    graph.Edges unit routines { cut.withTail { cut.tail with callClass := .forced } with
      successors := successors } next? none := by
  have htail : (cut.withTail { cut.tail with callClass := .forced }).tail =
      { cut.tail with callClass := .forced } :=
    Block.tail_withTail (fun h => (Instruction.isBranch_forced hnatural).trans h) rfl
  have hsame : (cut.withTail { cut.tail with callClass := .forced }).plain = cut.plain :=
    Block.plain_withTail rfl
  refine edges_of_plain hsame ?_ hsuccessors hiff hnext ?_ (by simp) ?_
  · show (cut.withTail _).tail.isUnconditional = _
    rw [htail, Instruction.isUnconditional_forced hnatural]
  · show _ ↔ (cut.withTail _).tail.isBranch = true ∧ ∃ label,
      (cut.withTail _).tail.destination.label? = some label ∧ _ ∧
        (label ∉ routines ∨ (cut.withTail _).tail.callClass = .suppressed)
    rw [htail, Instruction.destination_forced hnatural]
    -- the label is one of a routine and the call is not suppressed
    refine iff_of_false Bool.false_ne_true ?_
    rintro ⟨_, label', hlabel', _, hlocal | hclass⟩
    · obtain rfl : label = label' := Option.some.inj (hlabel.symm.trans hlabel')
      exact hlocal hroutine
    · cases hclass
  · show (cut.withTail _).tail.callClass = _ ↔ (cut.withTail _).tail.callClass ≠ _ ∧
      (cut.withTail _).tail.isBranch = true ∧ ∃ label ∈ routines,
        (cut.withTail _).tail.destination.label? = some label
    rw [htail, Instruction.destination_forced hnatural, Instruction.isBranch_forced hnatural]
    have hbranch := (Instruction.isCall_eq_false_iff_isBranch hnatural hlabel).1 hcall
    exact iff_of_true rfl ⟨by simp, hbranch, label, hroutine, hlabel⟩

/-- A linked block has the edges of its tail. -/
theorem edges_of_linked (hfresh : unit.Fresh) (hplain : unit.PlainSlots)
    (hfollows : graph.Follows unit routines) (hcut : (cutBlocks unit routines)[id]? = some cut)
    (hlinked : Linked unit routines (cutBlocks unit routines) id cut block) :
    ∃ next? taken?, graph.Edges unit routines block next? taken? := by
  have hmem := List.mem_of_getElem? hcut
  have hnatural := natural_tail hfresh hmem
  obtain ⟨next?, hnext, hiff, hblock⟩ := next_of_fallthrough hfresh hplain hfollows hcut
  cases hlinked with
  | plain hcall =>
    -- a branch has no destination here, as all with a destination are calls
    have hexclude : cut.tail.isBranch = true → ∀ label,
        cut.tail.destination.label? ≠ some label := by
      intro hisbranch label hlabel
      rw [Instruction.isBranch_of_isCall (hcall label hlabel) hnatural] at hisbranch
      exact Bool.false_ne_true hisbranch
    refine ⟨next?, none, edges_of_natural hnatural
      (fun label hisbranch hlabel => absurd hlabel (hexclude hisbranch label)) hnext hiff hblock ?_
      (by simp)⟩
    refine iff_of_false Bool.false_ne_true ?_
    rintro ⟨hisbranch, label, hlabel, _⟩
    exact hexclude hisbranch label hlabel
  | forced hcall hlabel hroutine =>
    exact ⟨next?, none, edges_of_forced hnext hnatural hcall hlabel hroutine hiff hblock⟩
  | @jump label a target hcall hlabel hlocal haddress htarget =>
    have hisbranch := (Instruction.isCall_eq_false_iff_isBranch hnatural hlabel).1 hcall
    obtain ⟨id', begun, hid', hbegun, _, hdefines⟩ :=
      blockAt?_of_jump hfresh hplain hmem hisbranch hlabel hlocal haddress
    obtain rfl : id' = target := Option.some.inj (hid'.symm.trans htarget)
    obtain ⟨other, hother, hsame⟩ := hfollows id' begun hbegun
    refine ⟨next?, some id', edges_of_natural hnatural (fun label' _ hlabel' => ?_)
      (by rw [hnext]) hiff hblock ?_ fun taken htaken => ?_⟩
    · exact Option.some.inj (hlabel.symm.trans hlabel') ▸ hlocal
    · exact iff_of_true rfl ⟨hisbranch, label, hlabel, by rw [haddress]; rfl⟩
    · cases htaken
      exact ⟨other, label, hother, hlabel,
        (Block.definesLabel_eq_of_plain hsame label).trans hdefines⟩
  | @lost label hcall hlabel hlocal hlost =>
    have hisbranch := (Instruction.isCall_eq_false_iff_isBranch hnatural hlabel).1 hcall
    refine ⟨next?, none, edges_of_natural hnatural (fun label' _ hlabel' => ?_) hnext hiff hblock
      ?_ (by simp)⟩
    · exact Option.some.inj (hlabel.symm.trans hlabel') ▸ hlocal
    · -- a label that is defined begins a block, so it is not lost
      refine iff_of_false Bool.false_ne_true ?_
      rintro ⟨_, label', hlabel', hdefined⟩
      obtain rfl : label = label' := Option.some.inj (hlabel.symm.trans hlabel')
      obtain ⟨a, haddress⟩ := Option.isSome_iff_exists.mp hdefined
      obtain ⟨id', _, hid', _⟩ :=
        blockAt?_of_jump hfresh hplain hmem hisbranch hlabel hlocal haddress
      rw [hlost a haddress] at hid'
      cases hid'

/-- The block that defines a called label begins with it. -/
theorem block?_of_blockDefining? (hfresh : unit.Fresh) (hplain : unit.PlainSlots)
    (hunique : unit.UniqueLabels) (hfollows : graph.Follows unit routines)
    (hcut : cut ∈ cutBlocks unit routines) (hcall : cut.tail.isCall = true) {label : String}
    (hlabel : cut.tail.destination.label? = some label)
    (htarget : (linkedGraph unit routines).blockDefining? label = some id) :
    (unit.addressOf? label).isSome = true ∧
      ∃ other, graph.block? id = some other ∧ other.first.definesLabel label = true := by
  obtain ⟨block, hblock, hcontains⟩ := Graph.containsLabel_of_blockDefining? htarget
  obtain ⟨insn, hinsn, hdefines⟩ := List.any_eq_true.mp hcontains
  obtain ⟨defining, hdefining, rfl⟩ := block?_linkedGraph.1 hblock
  have hsame := plain_linkedBlock unit routines (cutBlocks unit routines) id defining
  have hget := getElem?_of_mem_instructions hfresh (List.mem_of_getElem? hdefining) hsame hinsn
  have haddress := hunique.addressOf? hfresh hget hdefines
  obtain ⟨id', begun, _, hbegun, hfirst, hdefines'⟩ :=
    blockAt?_of_call hfresh hplain hcut hcall hlabel haddress
  -- both blocks hold the entry of the label
  have hmem : insn.address ∈ defining.addresses := by
    rw [← Block.addresses_eq_of_plain hsame]
    exact List.mem_map_of_mem hinsn
  have hmem' : insn.address ∈ begun.addresses := hfirst ▸ List.mem_cons_self
  obtain rfl : id = id' := eq_of_mem_addresses hfresh hdefining hbegun hmem hmem'
  obtain ⟨other, hother, hsame'⟩ := hfollows id begun hbegun
  refine ⟨by rw [haddress]; rfl, other, hother, ?_⟩
  rw [Block.definesLabel_eq_of_plain hsame']
  exact hdefines'

/-- A suppressed call has one edge, to the block that begins with the called label. -/
theorem edges_of_suppressed (hfresh : unit.Fresh) (hplain : unit.PlainSlots)
    (hunique : unit.UniqueLabels) (hfollows : graph.Follows unit routines)
    (hcut : (cutBlocks unit routines)[id]? = some cut) {call : LocalCall}
    (hcall : cut.tail.isCall = true) (hlabel : cut.tail.destination.label? = some call.label)
    (htarget : (linkedGraph unit routines).blockDefining? call.label = some call.target)
    (hblock : call.block = id) :
    graph.Edges unit routines
      (Graph.suppressedBlock call (linkedBlock unit routines (cutBlocks unit routines) id cut))
      none (some call.target) := by
  obtain ⟨hdefined, other, hother, hdefines⟩ := block?_of_blockDefining? hfresh hplain hunique
    hfollows (List.mem_of_getElem? hcut) hcall hlabel htarget
  rw [linkedBlock_of_isCall unit routines _ id hcall]
  -- from now on only the tail and the successors of the linked block count
  generalize hlinked : ({ cut with
    successors := fallthrough (cutBlocks unit routines).length id cut.tail } : Block) = linked
  have hsame : linked.tail = cut.tail := by rw [← hlinked]; rfl
  have hkept : linked.successors.filter (· ≠ call.block + 1) = [] := by
    rw [← hlinked]
    show (fallthrough _ _ _).filter _ = _
    unfold fallthrough
    split <;> simp [hblock]
  have htail : (Graph.suppressedBlock call linked).tail =
      { cut.tail with callClass := .suppressed } := by
    rw [← hsame]
    exact Block.tail_withTail (fun _ => rfl) rfl
  have hsuccessors : (Graph.suppressedBlock call linked).successors = [call.target] := by
    unfold Graph.suppressedBlock
    dsimp only
    rw [hkept]
    rfl
  have hdestination := Instruction.destination_suppressed hcall
  refine ⟨?_, ?_, by simp, ?_, by simp, ?_, ?_, ?_⟩
  · rw [hsuccessors]
    simp [eq_comm]
  · rw [hsuccessors]
    exact List.nodup_singleton _
  · rw [htail]
    refine ⟨fun h => (by cases h), fun h => ?_⟩
    cases h.1
  · rw [htail, hdestination]
    exact iff_of_true rfl ⟨rfl, call.label, hlabel, hdefined, .inr rfl⟩
  · intro taken htaken
    cases htaken
    rw [htail, hdestination]
    exact ⟨other, call.label, hother, hlabel, hdefines⟩
  · rw [htail]
    exact ⟨fun h => (by cases h), fun h => absurd rfl h.1⟩

end Edges

end RamOverlay
