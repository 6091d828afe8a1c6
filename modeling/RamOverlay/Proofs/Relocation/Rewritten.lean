import RamOverlay.Proofs.Relocation.LineChange
import RamOverlay.Proofs.Relocation.Passages
import RamOverlay.Proofs.Weight.Arrangement

/-!
# The lines that relocation rewrites

* **`Instruction.isSome_loadText?`** and its like: which entries get a text in their place. No entry
  gets two, and a branch that is replaced by a long exit gets none.
* **`PlacedBlock.Rewrites`**: the lines that are rewritten for a block.
* **`Program.drops_iff_rewrites`**: exactly those lines do not come through, and all others do,
  each once and in their order.
-/

namespace RamOverlay

namespace Text

variable {c sep : Char} {s : String}

theorem isSome_cutFirstOf : (cutFirstOf sep s).isSome = true ↔ sep ∈ s.toList := by
  unfold cutFirstOf
  rw [Option.isSome_map]
  cases hcut : cutFirst sep s.toList with
  | none =>
    refine iff_of_false Bool.false_ne_true fun hmem => ?_
    obtain ⟨before, after, heq, hbefore⟩ := List.eq_append_cons_of_mem hmem
    rw [heq, cutFirst_append_cons hbefore] at hcut
    cases hcut
  | some parts =>
    refine iff_of_true rfl ?_
    rw [(eq_of_cutFirst hcut).1]
    exact List.mem_append_right _ List.mem_cons_self

theorem mentions_iff {part : String} (hpart : part.toList = [c]) :
    mentions part s = true ↔ c ∈ s.toList := by
  unfold mentions
  rw [hpart]
  induction s.toList with
  | nil => exact iff_of_false Bool.false_ne_true List.not_mem_nil
  | cons d cs ih =>
    rw [occursIn, Bool.or_eq_true, ih, List.mem_cons]
    simp [List.isPrefixOf]

theorem mentions_eq_false_iff {part : String} (hpart : part.toList = [c]) :
    mentions part s = false ↔ c ∉ s.toList := by
  rw [← Bool.not_eq_true, mentions_iff hpart]

end Text

/-! ## Entries that get a text -/

namespace Thumb2

/-- What is left of a mnemonic without its condition is its beginning. -/
theorem toList_stripCondition_prefix (operator : String) :
    (stripCondition operator).toList <+: operator.toList := by
  unfold stripCondition
  split
  · exact List.prefix_rfl
  · split
    · rw [String.toList_ofList]
      exact List.take_prefix _ _
    · exact List.prefix_rfl

end Thumb2

namespace Instruction

variable {insn : Instruction} {register : String}

/-- Which loads are replaced: those of the plain mnemonic whose second operand is a bare symbol. -/
theorem isSome_loadText? : insn.loadText?.isSome = true ↔ insn.operator = "ldr" ∧
    ',' ∈ insn.operands.toList ∧ '[' ∉ insn.operands.toList ∧ '=' ∉ insn.operands.toList := by
  have hcomputed : (!(Text.mentions "[" insn.operands || Text.mentions "=" insn.operands)) = true ↔
      '[' ∉ insn.operands.toList ∧ '=' ∉ insn.operands.toList := by
    rw [Bool.not_eq_true', Bool.or_eq_false_iff, Text.mentions_eq_false_iff (c := '[') rfl,
      Text.mentions_eq_false_iff (c := '=') rfl]
  unfold loadText? literalLoad?
  rw [Option.isSome_map]
  dsimp only
  split
  next hload =>
    obtain ⟨hoperator, hplain⟩ := hload
    rw [Option.isSome_map, Text.isSome_cutFirstOf]
    exact ⟨fun hcomma => ⟨hoperator, hcomma, hcomputed.1 hplain⟩, fun h => h.2.1⟩
  next hload =>
    exact iff_of_false Bool.false_ne_true fun h => hload ⟨h.1, hcomputed.2 h.2.2⟩

theorem isSome_label?_iff {destination : Destination} :
    destination.label?.isSome = true ↔ ∃ label, destination = .label label := by
  cases destination <;> simp [Destination.label?]

theorem operator_of_isAddressGenerator (h : insn.isAddressGenerator = true) :
    ∃ rest, insn.operator.toList = 'a' :: rest := by
  have hstripped : insn.strippedOperator = "adr" := by
    simpa [isAddressGenerator, Thumb2.addressGenerators] using h
  obtain ⟨more, hmore⟩ := Thumb2.toList_stripCondition_prefix insn.operator
  rw [show Thumb2.stripCondition insn.operator = "adr" from hstripped] at hmore
  exact ⟨_, hmore.symm⟩

/-- What makes an address is in no table of branches or calls. -/
theorem not_mem_of_isAddressGenerator (h : insn.isAddressGenerator = true) {table : List String}
    (htable : ∀ operator ∈ table, operator.toList.head? ≠ some 'a') :
    table.contains insn.operator = false := by
  obtain ⟨rest, hrest⟩ := operator_of_isAddressGenerator h
  rw [List.contains_eq_mem, decide_eq_false_iff_not]
  intro hmem
  exact htable _ hmem (by rw [hrest]; rfl)

theorem isNaturalCall_of_isAddressGenerator (h : insn.isAddressGenerator = true) :
    insn.isNaturalCall = false :=
  not_mem_of_isAddressGenerator h (by decide)

/-- What is replaced in RAM: calls of a label, and the making of an address. -/
theorem isSome_ramText? : (insn.ramText? register).isSome = true ↔
    insn.isCall = true ∧ (∃ label, insn.destination = .label label) ∨
      insn.isAddressGenerator = true ∧ ',' ∈ insn.operands.toList := by
  unfold ramText?
  split
  next hcall =>
    -- nothing is a call and the making of an address at once
    have hnot : insn.isAddressGenerator = false := by
      refine Bool.eq_false_iff.2 fun haddress => ?_
      rw [isCall, isNaturalCall_of_isAddressGenerator haddress] at hcall
      cases hcall
    rw [Option.isSome_map, isSome_label?_iff]
    simp [hcall, hnot]
  next hcall =>
    split
    next haddress =>
      rw [Option.isSome_map, Text.isSome_cutFirstOf]
      simp [hcall, haddress]
    next haddress => simp [hcall, haddress]

/-- Which jumps into other routines are replaced. -/
theorem isSome_tailCallText? : insn.tailCallText?.isSome = true ↔
    insn.isForcedCall = true ∧ insn.isUnconditional = true ∧
      ∃ label, insn.destination = .label label := by
  unfold tailCallText?
  split
  next h =>
    rw [Option.isSome_map, isSome_label?_iff]
    obtain ⟨hforced, hunconditional⟩ := Bool.and_eq_true_iff.1 h
    exact ⟨fun hlabel => ⟨hforced, hunconditional, hlabel⟩, fun h => h.2.2⟩
  next h =>
    exact iff_of_false Bool.false_ne_true fun h' => h (Bool.and_eq_true_iff.2 ⟨h'.1, h'.2.1⟩)

/-- A load that branches goes to no label. -/
theorem destination_of_load (hoperator : insn.operator = "ldr") (hbranch : insn.isBranch = true) :
    insn.destination = .indirect := by
  unfold destination
  simp [hbranch, hoperator, isCompareBranch, Thumb2.compareBranches, Thumb2.pcWriters]

theorem isBranch_of_isAddressGenerator (hread : insn.IsRead) (h : insn.isAddressGenerator = true) :
    insn.isBranch = false := by
  obtain ⟨rest, hrest⟩ := operator_of_isAddressGenerator h
  have hclass : (insn.callClass == .suppressed) = false := by
    refine beq_eq_false_iff_ne.2 fun hsuppressed => ?_
    have hcall := hread.suppressed hsuppressed
    rw [isNaturalCall_of_isAddressGenerator h] at hcall
    cases hcall
  unfold isBranch neverFallsThrough loadsPc writesPc isTableBranch isCompareBranch
  rw [hclass, not_mem_of_isAddressGenerator h (by decide),
    not_mem_of_isAddressGenerator h (by decide),
    not_mem_of_isAddressGenerator h (by decide), not_mem_of_isAddressGenerator h (by decide),
    not_mem_of_isAddressGenerator h (by decide)]
  simp [Thumb2.multiLoadStems, Text.startsWith, hrest, List.isPrefixOf]

theorem not_isBranch_of_isCall (hcall : insn.isCall = true) : insn.isBranch = false := by
  obtain ⟨hnatural, hclass⟩ := Bool.and_eq_true_iff.1 hcall
  have hclass : (insn.callClass == .suppressed) = false := by simpa using hclass
  have hoperator : insn.operator = "bl" ∨ insn.operator = "blx" := by
    simpa [isNaturalCall, Thumb2.calls] using hnatural
  unfold isBranch neverFallsThrough loadsPc writesPc isTableBranch isCompareBranch
  rw [hclass]
  rcases hoperator with heq | heq <;>
    simp [heq, Thumb2.unconditionalBranches, Thumb2.conditionalBranches, Thumb2.compareBranches,
      Thumb2.multiLoadStems, Thumb2.pcWriters, Thumb2.tableBranches, Text.startsWith]

/-- What does not work from RAM is no branch. -/
theorem isBranch_of_ramText? (hread : insn.IsRead) (h : (insn.ramText? register).isSome = true) :
    insn.isBranch = false := by
  rcases isSome_ramText?.1 h with ⟨hcall, -⟩ | ⟨haddress, -⟩
  · exact not_isBranch_of_isCall hcall
  · exact isBranch_of_isAddressGenerator hread haddress

theorem ramText?_of_load (hoperator : insn.operator = "ldr") : insn.ramText? register = none := by
  rw [← Option.not_isSome_iff_eq_none, isSome_ramText?]
  rintro (⟨hcall, -⟩ | ⟨haddress, -⟩)
  · simp [isCall, isNaturalCall, hoperator, Thumb2.calls] at hcall
  · obtain ⟨rest, hrest⟩ := operator_of_isAddressGenerator haddress
    rw [hoperator] at hrest
    cases hrest

theorem tailCallText?_of_load (hoperator : insn.operator = "ldr") :
    insn.tailCallText? = none := by
  rw [← Option.not_isSome_iff_eq_none, isSome_tailCallText?]
  rintro ⟨-, hunconditional, label, hlabel⟩
  rw [destination_of_load hoperator (Bool.and_eq_true_iff.1 hunconditional).1] at hlabel
  cases hlabel

/-- No entry is replaced both as a call and as a jump. -/
theorem tailCallText?_of_ramText? (hread : insn.IsRead)
    (h : (insn.ramText? register).isSome = true) : insn.tailCallText? = none := by
  rw [← Option.not_isSome_iff_eq_none, isSome_tailCallText?]
  rintro ⟨-, hunconditional, -⟩
  rw [isUnconditional, isBranch_of_ramText? hread h] at hunconditional
  cases hunconditional

end Instruction

/-! ## Lines that are rewritten for a block -/

namespace PlacedBlock

variable {placed : PlacedBlock} {unit register : String} {line : Nat} {insn : Instruction}

/-- A line that is rewritten where the block is placed: that of a load of a literal, that of a
branch that is left through a long exit, and in RAM that of a call, of an address that is made
relative to the program counter, or of a jump into another routine. -/
inductive Rewrites (placed : PlacedBlock) (line : Nat) : Prop where
  | load {insn : Instruction} (hinsn : insn ∈ placed.block.instructions) (hline : insn.line = line)
      (hoperator : insn.operator = "ldr") (hcomma : ',' ∈ insn.operands.toList)
      (hbracket : '[' ∉ insn.operands.toList) (hequals : '=' ∉ insn.operands.toList)
  | exit (hline : placed.block.tail.line = line) (hcrosses : placed.crosses = true)
      (hbranch : placed.block.tail.isBranch = true)
  | call {insn : Instruction} {label : String} (hram : placed.inRam = true)
      (hinsn : insn ∈ placed.block.instructions) (hline : insn.line = line)
      (hcall : insn.isCall = true) (hlabel : insn.destination = .label label)
  | address {insn : Instruction} (hram : placed.inRam = true)
      (hinsn : insn ∈ placed.block.instructions) (hline : insn.line = line)
      (haddress : insn.isAddressGenerator = true) (hcomma : ',' ∈ insn.operands.toList)
  | tailCall {label : String} (hram : placed.inRam = true) (hstays : placed.crosses = false)
      (hline : placed.block.tail.line = line) (hforced : placed.block.tail.isForcedCall = true)
      (hunconditional : placed.block.tail.isUnconditional = true)
      (hlabel : placed.block.tail.destination = .label label)

/-- Only lines of the block are rewritten. -/
theorem Rewrites.standsOn (h : placed.Rewrites line) : placed.StandsOn line := by
  cases h with
  | load hinsn hline => exact ⟨_, hinsn, hline⟩
  | exit hline => exact hline ▸ placed.standsOn_tail
  | call _ hinsn hline => exact ⟨_, hinsn, hline⟩
  | address _ hinsn hline => exact ⟨_, hinsn, hline⟩
  | tailCall _ _ hline => exact hline ▸ placed.standsOn_tail

theorem mem_filterMap_entriesOn {text? : Instruction → Option String} {text : String} :
    text ∈ (placed.block.entriesOn line).filterMap text? ↔
      ∃ insn ∈ placed.block.instructions, insn.line = line ∧ text? insn = some text := by
  unfold Block.entriesOn
  simp only [List.mem_filterMap, List.mem_filter, beq_iff_eq, and_assoc]

/-- A replacement is that of a load, or, in RAM, of a call, of an address or of the tail. -/
theorem mem_replacements {text : String} : text ∈ placed.replacements register line ↔
    (∃ insn ∈ placed.block.instructions, insn.line = line ∧ insn.loadText? = some text) ∨
      placed.inRam = true ∧
        ((∃ insn ∈ placed.block.instructions, insn.line = line ∧
            insn.ramText? register = some text) ∨
          (placed.block.tail.line = line ∧ placed.crosses = false) ∧
            placed.block.tail.tailCallText? = some text) := by
  unfold replacements
  rw [List.mem_append, mem_filterMap_entriesOn]
  refine or_congr_right ?_
  split
  -- in flash only loads are replaced
  next hram =>
    rw [List.mem_append, mem_filterMap_entriesOn, and_iff_right hram]
    refine or_congr_right ?_
    split
    next htail => rw [and_iff_right htail, Option.mem_toList]
    next htail => simp [htail]
  next hram => simp [hram]

/-- A line is dropped for a block exactly if it is rewritten for it. -/
theorem rewrites_iff (hexit : placed.crosses = true → ∃ exit, placed.exit? unit = some exit) :
    placed.Rewrites line ↔ (placed.change unit register line).removed = true ∨
      (placed.change unit register line).inPlace ≠ [] := by
  rw [removed_change, inPlace_change]
  constructor
  · intro h
    -- a branch that gets a long exit is removed, and all others have a text in their place
    cases h with
    | load hinsn hline hoperator hcomma hbracket hequals =>
      obtain ⟨text, htext⟩ := Option.isSome_iff_exists.1
        (Instruction.isSome_loadText?.2 ⟨hoperator, hcomma, hbracket, hequals⟩)
      exact .inr (List.ne_nil_of_mem (mem_replacements.2 (.inl ⟨_, hinsn, hline, htext⟩)))
    | exit hline hcrosses hbranch =>
      obtain ⟨exit, hexit⟩ := hexit hcrosses
      exact .inl (by simp [hline, hbranch, hexit])
    | call hram hinsn hline hcall hlabel =>
      obtain ⟨text, htext⟩ := Option.isSome_iff_exists.1
        ((@Instruction.isSome_ramText? _ register).2 (.inl ⟨hcall, _, hlabel⟩))
      exact .inr (List.ne_nil_of_mem
        (mem_replacements.2 (.inr ⟨hram, .inl ⟨_, hinsn, hline, htext⟩⟩)))
    | address hram hinsn hline haddress hcomma =>
      obtain ⟨text, htext⟩ := Option.isSome_iff_exists.1
        ((@Instruction.isSome_ramText? _ register).2 (.inr ⟨haddress, hcomma⟩))
      exact .inr (List.ne_nil_of_mem
        (mem_replacements.2 (.inr ⟨hram, .inl ⟨_, hinsn, hline, htext⟩⟩)))
    | tailCall hram hstays hline hforced hunconditional hlabel =>
      obtain ⟨text, htext⟩ := Option.isSome_iff_exists.1
        (Instruction.isSome_tailCallText?.2 ⟨hforced, hunconditional, _, hlabel⟩)
      exact .inr (List.ne_nil_of_mem
        (mem_replacements.2 (.inr ⟨hram, .inr ⟨⟨hline, hstays⟩, htext⟩⟩)))
  · rintro (hremoved | hne)
    · simp only [Bool.and_eq_true, beq_iff_eq] at hremoved
      obtain ⟨⟨hline, hbranch⟩, hsome⟩ := hremoved
      obtain ⟨exit, hexit⟩ := Option.isSome_iff_exists.1 hsome
      exact .exit hline (exit?_eq_some.1 hexit).1 hbranch
    · obtain ⟨text, htext⟩ := List.exists_mem_of_ne_nil _ hne
      rcases mem_replacements.1 htext with ⟨insn, hinsn, hline, hsome⟩ |
        ⟨hram, ⟨insn, hinsn, hline, hsome⟩ | ⟨⟨hline, hstays⟩, hsome⟩⟩
      · obtain ⟨hoperator, hcomma, hbracket, hequals⟩ :=
          Instruction.isSome_loadText?.1 (Option.isSome_of_eq_some hsome)
        exact .load hinsn hline hoperator hcomma hbracket hequals
      · rcases Instruction.isSome_ramText?.1 (Option.isSome_of_eq_some hsome) with
          ⟨hcall, label, hlabel⟩ | ⟨haddress, hcomma⟩
        · exact .call hram hinsn hline hcall hlabel
        · exact .address hram hinsn hline haddress hcomma
      · obtain ⟨hforced, hunconditional, label, hlabel⟩ :=
          Instruction.isSome_tailCallText?.1 (Option.isSome_of_eq_some hsome)
        exact .tailCall hram hstays hline hforced hunconditional hlabel

section Line

variable (hascending : placed.block.instructions.Pairwise (·.line < ·.line))
  (hinsn : insn ∈ placed.block.instructions)
include hascending hinsn

/-- The entries of a block stand on different lines. -/
theorem eq_of_line_eq {insn' : Instruction} (hinsn' : insn' ∈ placed.block.instructions)
    (hline : insn.line = insn'.line) : insn = insn' := by
  have hnodup : (placed.block.instructions.map (·.line)).Nodup :=
    List.pairwise_map.2 (hascending.imp Nat.ne_of_lt)
  exact List.inj_on_of_nodup_map hnodup hinsn hinsn' hline

theorem tail_eq_of_line_eq (hline : placed.block.tail.line = insn.line) :
    placed.block.tail = insn :=
  eq_of_line_eq hascending placed.block.tail_mem hinsn hline

/-- The texts in the place of an entry. -/
theorem replacements_eq : placed.replacements register insn.line = insn.loadText?.toList ++
    if placed.inRam then
      (insn.ramText? register).toList ++
        if placed.block.tail.line = insn.line ∧ placed.crosses = false then
          placed.block.tail.tailCallText?.toList
        else []
    else [] := by
  -- the entries of a block have different lines, so there is no other one
  have hone : placed.block.entriesOn insn.line = [insn] :=
    filter_eq_singleton (hascending.imp Nat.ne_of_lt) hinsn
  have hsingle : ∀ text? : Instruction → Option String,
      [insn].filterMap text? = (text? insn).toList := by
    intro text?
    cases htext : text? insn <;> simp [htext]
  unfold replacements
  rw [hone, hsingle, hsingle]

/-- No jump is put in the place of an entry that is not a tail with one. -/
theorem tailCall_eq_nil
    (hnone : placed.block.tail = insn → placed.block.tail.tailCallText? = none) :
    (if placed.block.tail.line = insn.line ∧ placed.crosses = false then
      placed.block.tail.tailCallText?.toList else []) = [] := by
  split
  next h => rw [hnone (tail_eq_of_line_eq hascending hinsn h.1), Option.toList_none]
  next => rfl

/-- An entry gets at most one text. -/
theorem length_replacements_le (hread : placed.block.tail.IsRead) :
    (placed.replacements register insn.line).length ≤ 1 := by
  rw [replacements_eq hascending hinsn]
  cases hload : insn.loadText? with
  | some text =>
    have hoperator := (Instruction.isSome_loadText?.1 (Option.isSome_of_eq_some hload)).1
    have hnone : placed.block.tail = insn → placed.block.tail.tailCallText? = none := by
      rintro rfl
      exact Instruction.tailCallText?_of_load hoperator
    rw [Instruction.ramText?_of_load hoperator, tailCall_eq_nil hascending hinsn hnone]
    cases placed.inRam <;> exact Nat.le_refl 1
  | none =>
    cases hram : insn.ramText? register with
    | some text =>
      have hnone : placed.block.tail = insn → placed.block.tail.tailCallText? = none := by
        rintro rfl
        exact Instruction.tailCallText?_of_ramText? hread (Option.isSome_of_eq_some hram)
      rw [tailCall_eq_nil hascending hinsn hnone]
      cases placed.inRam
      · exact Nat.zero_le 1
      · exact Nat.le_refl 1
    | none =>
      -- only the jump is left
      cases placed.inRam
      · exact Nat.zero_le 1
      · show (if placed.block.tail.line = insn.line ∧ placed.crosses = false then
            placed.block.tail.tailCallText?.toList else []).length ≤ 1
        split
        · exact Option.length_toList_le
        · exact Nat.zero_le 1

/-- An entry that is removed gets no text. -/
theorem replacements_of_removed (hread : placed.block.tail.IsRead)
    (h : (placed.change unit register insn.line).removed = true) :
    placed.replacements register insn.line = [] := by
  rw [removed_change, Bool.and_eq_true, Bool.and_eq_true, beq_iff_eq] at h
  obtain ⟨⟨hline, hbranch⟩, hsome⟩ := h
  obtain ⟨exit, hexit⟩ := Option.isSome_iff_exists.1 hsome
  obtain ⟨hcrosses, hexit⟩ := exit?_eq_some.1 hexit
  -- the tail has a long exit, and so a label
  have hload : placed.block.tail.loadText? = none := by
    rw [← Option.not_isSome_iff_eq_none, Instruction.isSome_loadText?]
    rintro ⟨hoperator, -⟩
    unfold Block.exit at hexit
    simp [hbranch, Instruction.destination_of_load hoperator hbranch] at hexit
  have hram : placed.block.tail.ramText? register = none := by
    rw [← Option.not_isSome_iff_eq_none]
    intro hsome
    rw [Instruction.isBranch_of_ramText? hread hsome] at hbranch
    cases hbranch
  obtain rfl := tail_eq_of_line_eq hascending hinsn hline
  rw [replacements_eq hascending hinsn, hload, hram]
  simp [hcrosses]

end Line

/-- A branch to a label that is rewritten crosses the boundary, or jumps from RAM into a routine. -/
theorem Rewrites.of_branch {label : String}
    (hascending : placed.block.instructions.Pairwise (·.line < ·.line))
    (hread : placed.block.tail.IsRead) (hbranch : placed.block.tail.isBranch = true)
    (hlabel : placed.block.tail.destination = .label label)
    (h : placed.Rewrites placed.block.tail.line) :
    placed.crosses = true ∨ placed.inRam = true ∧ placed.block.tail.isForcedCall = true ∧
      placed.block.tail.isUnconditional = true := by
  -- what is rewritten on the line of the tail is the tail, and neither a load nor a call nor an
  -- address is a branch to a label
  have htail : ∀ {insn}, insn ∈ placed.block.instructions → insn.line = placed.block.tail.line →
      insn = placed.block.tail := fun hinsn hline =>
    (tail_eq_of_line_eq hascending hinsn hline.symm).symm
  cases h with
  | load hinsn hline hoperator =>
    rw [htail hinsn hline] at hoperator
    rw [Instruction.destination_of_load hoperator hbranch] at hlabel
    cases hlabel
  | exit _ hcrosses => exact .inl hcrosses
  | call _ hinsn hline hcall =>
    rw [htail hinsn hline] at hcall
    rw [Instruction.not_isBranch_of_isCall hcall] at hbranch
    cases hbranch
  | address _ hinsn hline haddress =>
    rw [htail hinsn hline] at haddress
    rw [Instruction.isBranch_of_isAddressGenerator hread haddress] at hbranch
    cases hbranch
  | tailCall hram _ _ hforced hunconditional => exact .inr ⟨hram, hforced, hunconditional⟩

end PlacedBlock

/-! ## The text of a unit -/

/-- The edited text of a unit is made of its passages. -/
theorem SourceUnit.render_eq_passages (unit : SourceUnit) {edits : EditList}
    (hdata : edits.dataTexts = []) :
    unit.render edits = Text.joinWith "\n"
      ((edits.passages unit.lines).flatMap Passage.lines ++ [".data"]) ++ "\n" := by
  unfold render
  rw [EditList.apply_eq_passages, hdata]
  rfl

theorem EditList.drops_iff {edits : EditList} {line : Nat} : edits.drops line = true ↔
    (edits.atLine line).removed = true ∨ (edits.atLine line).inPlace ≠ [] := by
  rw [EditList.drops, Bool.or_eq_true, Bool.not_eq_true', List.isEmpty_eq_false_iff]

namespace Program

variable {program : Program} {graphs : List Graph} {unit : SourceUnit} {register : String}
  {edits : EditList} {stats : RelocationStats}

/-- A line of a block is dropped exactly if it is rewritten for this block. -/
theorem IsPlacement.drops_iff (hread : ∀ unit ∈ program.units, unit.Parsed)
    (hnames : (program.units.map (·.name)).Nodup) (hplaced : program.IsPlacement graphs)
    (hunit : unit ∈ program.units)
    (hrelocate : (unit.relocate register graphs).run.value = .ok (edits, stats)) {p : PlacedBlock}
    {line : Nat} (hp : p ∈ unit.placedBlocks graphs) (hon : p.StandsOn line) :
    edits.drops line = true ↔ p.Rewrites line := by
  have hdisjoint := (hplaced.places hread hnames hunit).disjointLines (hread unit hunit)
  obtain ⟨hexits, hat, -⟩ := SourceUnit.relocate_cases hrelocate
  rw [EditList.drops_iff, hat, SourceUnit.changesAt_of_standsOn hdisjoint hp hon]
  exact (PlacedBlock.rewrites_iff (hexits p hp)).symm

/-- Relocation drops exactly the lines that are rewritten for a block. Each gets at most one text,
and none if it is removed; all other lines of the unit come through, each once and in order. -/
theorem drops_iff_rewrites (hread : ∀ unit ∈ program.units, unit.Parsed)
    (hnames : (program.units.map (·.name)).Nodup) (hplaced : program.IsPlacement graphs)
    (hunit : unit ∈ program.units)
    (hrelocate : (unit.relocate register graphs).run.value = .ok (edits, stats)) :
    (∀ line, edits.drops line = true ↔
      ∃ placed ∈ unit.placedBlocks graphs, placed.Rewrites line) ∧
    (∀ line, (edits.atLine line).inPlace.length ≤ 1 ∧
      ((edits.atLine line).removed = true → (edits.atLine line).inPlace = [])) ∧
    unit.render edits = Text.joinWith "\n"
      ((edits.passages unit.lines).flatMap Passage.lines ++ [".data"]) ++ "\n" ∧
    (edits.passages unit.lines).filter (·.origin == .source) =
      (unit.lines.zipIdx.filter fun entry => !edits.drops entry.2).map fun entry =>
        ⟨.source, entry.2, entry.1⟩ := by
  have hparsed := hread unit hunit
  have hplaces := hplaced.places hread hnames hunit
  have hdisjoint := hplaces.disjointLines hparsed
  obtain ⟨-, hat, hdata⟩ := SourceUnit.relocate_cases hrelocate
  refine ⟨fun line => ?_, fun line => ?_, unit.render_eq_passages hdata,
    edits.filter_source unit.lines⟩
  · -- a line belongs to one block, or to none and then only labels come before it
    by_cases hline : ∃ p ∈ unit.placedBlocks graphs, p.StandsOn line
    · obtain ⟨p, hp, hon⟩ := hline
      rw [hplaced.drops_iff hread hnames hunit hrelocate hp hon]
      refine ⟨fun h => ⟨p, hp, h⟩, ?_⟩
      rintro ⟨q, hq, h⟩
      rwa [hdisjoint.eq_of_standsOn hp hq hon h.standsOn]
    · rw [EditList.drops_iff, hat,
        SourceUnit.changesAt_of_not_standsOn fun p hp hon => hline ⟨p, hp, hon⟩]
      refine iff_of_false (fun h => ?_) fun ⟨p, hp, h⟩ => hline ⟨p, hp, h.standsOn⟩
      exact h.elim Bool.false_ne_true fun hne => hne rfl
  · rw [hat]
    by_cases hline : ∃ p ∈ unit.placedBlocks graphs, p.StandsOn line
    · obtain ⟨p, hp, insn, hinsn, rfl⟩ := hline
      obtain ⟨u, hblock⟩ := hplaces.isBlock p hp
      have hascending := hblock.pairwise_line hparsed
      have htail := hblock.isRead_tail hparsed
      rw [SourceUnit.changesAt_of_standsOn hdisjoint hp ⟨insn, hinsn, rfl⟩]
      show (p.change unit.name register insn.line).inPlace.length ≤ 1 ∧
        ((p.change unit.name register insn.line).removed = true →
          (p.change unit.name register insn.line).inPlace = [])
      rw [PlacedBlock.inPlace_change]
      exact ⟨PlacedBlock.length_replacements_le hascending hinsn htail,
        PlacedBlock.replacements_of_removed hascending hinsn htail⟩
    · rw [SourceUnit.changesAt_of_not_standsOn fun p hp hon => hline ⟨p, hp, hon⟩]
      exact ⟨Nat.zero_le 1, fun _ => rfl⟩

/-- The lines of the load of a literal, of the branch to the arm in RAM, and of the address and the
jump in RAM are dropped. -/
theorem drops_iff_rewrites_twoArms : ∃ edits stats,
    (∀ unit ∈ [twoArms], unit.Parsed) ∧ ([twoArms].map (·.name)).Nodup ∧
      ({ units := [twoArms] } : Program).IsPlacement twoArmsPlaced ∧
      (twoArms.relocate "r5" twoArmsPlaced).run.value = .ok (edits, stats) ∧
      (∀ line, edits.drops line = true ↔
        ∃ placed ∈ twoArms.placedBlocks twoArmsPlaced, placed.Rewrites line) ∧
      (List.range twoArms.lines.length).filter edits.drops = [2, 4, 6, 7] := by
  obtain ⟨stats, hrelocate⟩ := relocate_twoArms
  have hnames : ([twoArms].map (·.name)).Nodup := List.nodup_singleton _
  have hmain := @drops_iff_rewrites { units := [twoArms] } _ _ _ _ _ parsed_twoArms hnames
    isPlacement_twoArms (List.mem_singleton_self _) hrelocate
  exact ⟨_, stats, parsed_twoArms, hnames, isPlacement_twoArms, hrelocate, hmain.1, by
    decide +kernel⟩

end Program

end RamOverlay
