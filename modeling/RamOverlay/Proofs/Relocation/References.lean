import RamOverlay.Proofs.Code.Conditional
import RamOverlay.Proofs.Relocation.Accesses
import RamOverlay.Proofs.Relocation.Rewritten
import RamOverlay.Size.Oracle

/-!
# References from blocks in RAM

A block in RAM is too far from flash for what it finds relative to the program counter, so that its
loads and addresses are replaced by literals.

* **`Thumb2.Access.KeptBy`**: instructions that refer to the same symbol, under the same condition
  and with the same result, and to nothing near.
* **`Instruction.exists_access?`**: what a literal form says, with the condition of its mnemonic.
* **`PlacedBlock.replacements_of_load`**, **`replacements_of_address`** and
  **`replacements_of_conditionalLoad`**: the texts in the place of a literal form in RAM.
* **`SourceUnit.keepsReference_iff`**: the references that survive are those of instructions without
  a condition, but for loads of the program counter.
-/

namespace RamOverlay

/-! ## References that are kept -/

namespace Thumb2.Access

/-- Instructions that do the same as one that may refer to something near, and do not need it to be
near. -/
structure KeptBy (asm : Assembler) (original : Access) (accesses : List Access) : Prop where
  literal : ∃ access ∈ accesses, ∃ symbol, original.referent.symbol? = some symbol ∧
    access.referent = .literal symbol
  far : ∀ access ∈ accesses, access.referent.isNear = false
  condition : ∀ access ∈ accesses, access.condition? = original.condition?
  value : ∀ memory machine,
    (asm.perform memory machine accesses).registers original.register =
      (asm.perform memory machine [original]).registers original.register

variable {asm : Assembler} {condition? : Option Condition} {register : Fin 16} {symbol : String}

/-- A literal is loaded without a condition, in place of an address. -/
theorem keptBy_literal_iff : KeptBy asm ⟨condition?, register, .nearAddress symbol⟩
    [⟨none, register, .literal symbol⟩] ↔ condition? = none := by
  refine ⟨fun h => (h.condition _ (List.mem_singleton_self _)).symm, ?_⟩
  rintro rfl
  exact {
    literal := ⟨_, List.mem_singleton_self _, symbol, rfl, rfl⟩
    far := List.forall_mem_singleton.2 rfl
    condition := List.forall_mem_singleton.2 rfl
    value := fun memory machine => by rw [asm.perform_literal] }

/-- Reading the address first and then what is there is reading the word. -/
theorem keptBy_literal_pointer (hsafe : register ≠ Machine.programCounter) :
    KeptBy asm ⟨none, register, .nearWord symbol⟩
      [⟨none, register, .literal symbol⟩, ⟨none, register, .pointer register⟩] where
  literal := ⟨_, List.mem_cons_self, symbol, rfl, rfl⟩
  far := List.forall_mem_cons.2 ⟨rfl, List.forall_mem_singleton.2 rfl⟩
  condition := List.forall_mem_cons.2 ⟨rfl, List.forall_mem_singleton.2 rfl⟩
  value memory machine := by rw [asm.perform_literal_pointer memory machine none symbol hsafe]

/-- A literal that is written to the program counter goes to the symbol, where the word there may
lead elsewhere. -/
theorem not_keptBy_programCounter {rest : List Access} :
    ¬ KeptBy asm ⟨none, Machine.programCounter, .nearWord symbol⟩
      (⟨none, Machine.programCounter, .literal symbol⟩ :: rest) := by
  intro h
  have hvalue := h.value (fun address => address + 1) ⟨fun _ => 0, ⟨false, false, false, false⟩⟩
  rw [asm.perform_literal_programCounter] at hvalue
  simp [Assembler.perform, Assembler.valueOf] at hvalue

/-- A literal and the word to which it leads are loaded without a condition, in place of a word. -/
theorem keptBy_literal_pointer_iff : KeptBy asm ⟨condition?, register, .nearWord symbol⟩
    [⟨none, register, .literal symbol⟩, ⟨none, register, .pointer register⟩] ↔
      condition? = none ∧ register ≠ Machine.programCounter := by
  constructor
  · intro h
    obtain rfl : condition? = none := (h.condition _ List.mem_cons_self).symm
    refine ⟨rfl, ?_⟩
    rintro rfl
    exact not_keptBy_programCounter h
  · rintro ⟨rfl, hsafe⟩
    exact keptBy_literal_pointer hsafe

end Thumb2.Access

/-! ## Mnemonics with a condition -/

namespace Thumb2

theorem Condition.suffix_ne_empty (condition : Condition) : condition.suffix ≠ "" := by
  cases condition <;> decide

theorem exists_suffix_eq {suffix : String} (h : suffix ∈ conditionSuffixes) :
    ∃ condition : Condition, condition.suffix = suffix := by
  have hall : ∀ suffix ∈ conditionSuffixes,
      (Condition.ofSuffix? suffix).map Condition.suffix = some suffix := by decide
  obtain ⟨condition, -, hsuffix⟩ := Option.map_eq_some_iff.1 (hall suffix h)
  exact ⟨condition, hsuffix⟩

/-- A mnemonic is its base form, perhaps with the suffix of a condition. -/
theorem eq_or_suffix_of_stripCondition {operator stem : String}
    (h : stripCondition operator = stem) :
    operator = stem ∨ ∃ condition : Condition, operator = stem ++ condition.suffix := by
  unfold stripCondition at h
  split at h
  · exact .inl h
  · split at h
    next suffix hfind =>
      obtain ⟨condition, rfl⟩ := exists_suffix_eq (List.mem_of_find?_eq_some hfind)
      -- the suffix that is found ends the mnemonic, and the rest is what is left
      have hends := List.find?_some hfind
      obtain ⟨front, hfront⟩ := List.isSuffixOf_iff_suffix.1 hends
      refine .inr ⟨condition, ?_⟩
      rw [← String.toList_inj, String.toList_append, ← h, String.toList_ofList,
        ← String.length_toList, ← String.length_toList, ← hfront, List.length_append,
        Nat.add_sub_cancel, List.take_left]
    next => exact .inl h

/-- The condition behind a stem is read back. -/
theorem conditionBehind?_suffix (stem : List Char) (condition : Condition) :
    conditionBehind? stem (stem ++ condition.suffix.toList) = some (some condition) := by
  have hlonger : stem ++ condition.suffix.toList ≠ stem := fun heq =>
    condition.suffix_ne_empty (String.toList_eq_nil_iff.1 (List.append_right_eq_self.1 heq))
  have hprefix := List.isPrefixOf_iff_prefix.2 (List.prefix_append stem condition.suffix.toList)
  rw [conditionBehind?, if_neg hlonger, if_pos hprefix, List.drop_left, String.ofList_toList,
    Condition.ofSuffix?_suffix]
  rfl

end Thumb2

/-! ## Literal forms -/

namespace Instruction

variable {insn : Instruction} {target operand : List Char} {asm : Thumb2.Assembler} {r : Fin 16}

/-- The first operand, which names the register that a literal form writes. -/
def targetName (insn : Instruction) : String :=
  Text.strip ((Text.piecesOf ',' insn.operands).headD "")

/-- The condition of a mnemonic with a known base form. -/
theorem exists_condition {stem : String} (h : insn.strippedOperator = stem) :
    ∃ condition?, Thumb2.conditionBehind? stem.toList insn.operator.toList = some condition? ∧
      (condition? = none ↔ ¬ insn.IsConditional) := by
  unfold IsConditional
  rw [h]
  rcases Thumb2.eq_or_suffix_of_stripCondition h with heq | ⟨condition, heq⟩
  · refine ⟨none, ?_, iff_of_true rfl fun hne => hne heq.symm⟩
    rw [heq, Thumb2.conditionBehind?, if_pos rfl]
  · refine ⟨some condition, ?_, iff_of_false nofun fun hall => hall fun hstem => ?_⟩
    · rw [heq, String.toList_append, Thumb2.conditionBehind?_suffix]
    · rw [heq] at hstem
      refine condition.suffix_ne_empty (String.toList_eq_nil_iff.1 ?_)
      simpa using congrArg String.toList hstem

/-- What names a literal is a load or the making of an address, with or without a condition. -/
theorem isLiteralForm_cases (h : insn.isLiteralForm = true) :
    (insn.strippedOperator = "ldr" ∧ insn.isAddressGenerator = false ∨
      insn.strippedOperator = "adr" ∧ insn.isAddressGenerator = true) ∧
    '[' ∉ insn.operands.toList ∧ '=' ∉ insn.operands.toList := by
  unfold isLiteralForm at h
  rw [Bool.and_eq_true, Bool.and_eq_true, Bool.not_eq_true', Bool.not_eq_true',
    Text.mentions_eq_false_iff (c := '[') rfl, Text.mentions_eq_false_iff (c := '=') rfl] at h
  refine ⟨?_, h.1.2, h.2⟩
  -- each of the two tables has a single mnemonic
  have hforms : insn.strippedOperator = "ldr" ∨ insn.strippedOperator = "adr" := by
    simpa [isAddressGenerator, Thumb2.literalLoads, Thumb2.addressGenerators] using h.1.1
  rcases hforms with heq | heq
  · exact .inl ⟨heq, by simp [isAddressGenerator, heq, Thumb2.addressGenerators]⟩
  · exact .inr ⟨heq, by simp [isAddressGenerator, heq, Thumb2.addressGenerators]⟩

/-- The operands of a literal form are cut behind the register. -/
theorem exists_cutFirst (h : insn.literalSymbol?.isSome = true) : ∃ target operand,
    Text.cutFirst ',' insn.operands.toList = some (target, operand) ∧
      insn.targetName = Text.strip (String.ofList target) := by
  by_cases hcomma : ',' ∈ insn.operands.toList
  · obtain ⟨target, operand, heq, htarget⟩ := List.eq_append_cons_of_mem hcomma
    refine ⟨target, operand, heq ▸ Text.cutFirst_append_cons htarget operand, ?_⟩
    rw [targetName, Text.piecesOf, heq, Text.pieces_append_cons htarget]
    rfl
  · rw [literalSymbol?, Text.piecesOf, Text.pieces_of_not_mem hcomma] at h
    cases h

/-- The symbol is a part of the operands. -/
theorem mem_operands_of_mem_symbol
    (hcut : Text.cutFirst ',' insn.operands.toList = some (target, operand)) {c : Char}
    (hc : c ∈ (Text.strip (String.ofList operand)).toList) : c ∈ insn.operands.toList := by
  rw [Text.toList_strip, String.toList_ofList] at hc
  rw [(Text.eq_of_cutFirst hcut).1]
  exact List.mem_append_right _ (List.mem_cons_of_mem _ (Text.mem_of_mem_trim hc))

theorem plain_of_cutFirst (hplain : Source.Plain insn.operands)
    (hcut : Text.cutFirst ',' insn.operands.toList = some (target, operand)) :
    Source.Plain (Text.strip (String.ofList operand)) :=
  fun c hc => hplain c (mem_operands_of_mem_symbol hcut hc)

/-- The symbol has no mark of another kind of operand. -/
theorem loaded?_of_isLiteralForm (hform : insn.isLiteralForm = true)
    (hcut : Text.cutFirst ',' insn.operands.toList = some (target, operand)) :
    asm.loaded? (Text.strip (String.ofList operand)) =
      some (.nearWord (Text.strip (String.ofList operand))) := by
  obtain ⟨-, hbracket, hequals⟩ := isLiteralForm_cases hform
  have hsymbol := fun c => @mem_operands_of_mem_symbol insn target operand hcut c
  unfold Thumb2.Assembler.loaded?
  split
  next heq => exact absurd (hsymbol '=' (heq ▸ List.mem_cons_self)) hequals
  next heq => exact absurd (hsymbol '[' (heq ▸ List.mem_cons_self)) hbracket
  next => rfl

/-- The mnemonic of a load is not that of an address. -/
theorem conditionBehind?_of_load (hload : insn.strippedOperator = "ldr") :
    Thumb2.conditionBehind? ['a', 'd', 'r'] insn.operator.toList = none := by
  obtain ⟨more, hmore⟩ := Thumb2.toList_stripCondition_prefix insn.operator
  rw [show Thumb2.stripCondition insn.operator = "ldr" from hload] at hmore
  rw [← hmore]
  rfl

/-- What a literal form says: its mnemonic tells its condition, and it refers to the symbol behind
the comma. -/
theorem exists_access? (hform : insn.isLiteralForm = true)
    (hcut : Text.cutFirst ',' insn.operands.toList = some (target, operand))
    (hregister : asm.register? (Text.strip (String.ofList target)) = some r) :
    ∃ condition?, (condition? = none ↔ ¬ insn.IsConditional) ∧
      asm.access? insn.operator.toList insn.operands.toList = some ⟨condition?, r,
        if insn.isAddressGenerator then .nearAddress (Text.strip (String.ofList operand))
        else .nearWord (Text.strip (String.ofList operand))⟩ := by
  rcases (isLiteralForm_cases hform).1 with ⟨hstripped, haddress⟩ | ⟨hstripped, haddress⟩
  · -- a load: its mnemonic is `ldr` with the condition behind
    obtain ⟨condition?, hbehind, hiff⟩ := exists_condition hstripped
    refine ⟨condition?, hiff, ?_⟩
    rw [Thumb2.Assembler.access?, hcut]
    dsimp only
    rw [hregister, Option.bind_some, Thumb2.Assembler.referent?, conditionBehind?_of_load hstripped]
    dsimp only
    rw [show ['l', 'd', 'r'] = "ldr".toList from rfl, hbehind]
    dsimp only
    rw [loaded?_of_isLiteralForm hform hcut, haddress]
    rfl
  · obtain ⟨condition?, hbehind, hiff⟩ := exists_condition hstripped
    refine ⟨condition?, hiff, ?_⟩
    rw [Thumb2.Assembler.access?, hcut]
    dsimp only
    rw [hregister, Option.bind_some, Thumb2.Assembler.referent?,
      show ['a', 'd', 'r'] = "adr".toList from rfl, hbehind, haddress]
    rfl

/-! ## Texts in the place of a literal form -/

/-- A load is replaced by two lines, for its address and for the word there. -/
theorem loadText?_eq (hform : insn.isLiteralForm = true)
    (hcut : Text.cutFirst ',' insn.operands.toList = some (target, operand))
    (hoperator : insn.operator = "ldr") : insn.loadText? = some (Text.joinWith "\n"
      [Thumb2.literalLine (Text.strip (String.ofList target)) (Text.strip (String.ofList operand)),
        Thumb2.pointerLine (Text.strip (String.ofList target))]) := by
  obtain ⟨-, hbracket, hequals⟩ := isLiteralForm_cases hform
  have hcomputed :
      (Text.mentions "[" insn.operands || Text.mentions "=" insn.operands) = false := by
    rw [Bool.or_eq_false_iff, Text.mentions_eq_false_iff (c := '[') rfl,
      Text.mentions_eq_false_iff (c := '=') rfl]
    exact ⟨hbracket, hequals⟩
  unfold loadText? literalLoad?
  dsimp only
  rw [if_pos ⟨hoperator, by rw [hcomputed]; rfl⟩, Text.cutFirstOf, hcut]
  simp [Thumb2.literalLine, Thumb2.pointerLine, Text.joinWith_cons_cons, Text.joinWith_singleton,
    ← String.toList_inj]

/-- The making of an address is replaced by a load of that address. -/
theorem ramText?_eq (haddress : insn.isAddressGenerator = true)
    (hcut : Text.cutFirst ',' insn.operands.toList = some (target, operand)) (register : String) :
    insn.ramText? register = some (Text.joinWith "\n"
      [Thumb2.literalLine (Text.strip (String.ofList target))
        (Text.strip (String.ofList operand))]) := by
  have hcall : insn.isCall = false := by
    rw [isCall, isNaturalCall_of_isAddressGenerator haddress, Bool.false_and]
  unfold ramText?
  rw [if_neg (by simp [hcall]), if_pos haddress, Text.cutFirstOf, hcut, Text.joinWith_singleton]
  rfl

/-- A load with a condition is no branch, though a class may make other entries one. -/
theorem neverFallsThrough_of_conditionalLoad (hload : insn.strippedOperator = "ldr")
    (hconditional : insn.IsConditional) (hclass : insn.callClass ≠ .suppressed) :
    insn.neverFallsThrough = false := by
  rcases Thumb2.eq_or_suffix_of_stripCondition hload with heq | ⟨condition, heq⟩
  · exact absurd (hload.trans heq.symm) hconditional
  · have hclass : (insn.callClass == .suppressed) = false := beq_eq_false_iff_ne.2 hclass
    unfold neverFallsThrough loadsPc writesPc isTableBranch
    rw [hclass, heq]
    cases condition <;> rfl

/-- No text is put in the place of a load with a condition. -/
theorem texts_of_conditionalLoad (hload : insn.strippedOperator = "ldr")
    (hconditional : insn.IsConditional) (register : String) :
    insn.loadText? = none ∧ insn.ramText? register = none ∧ insn.tailCallText? = none := by
  refine ⟨?_, ?_, ?_⟩ <;> rw [← Option.not_isSome_iff_eq_none]
  · rw [isSome_loadText?]
    exact fun h => hconditional (hload.trans h.1.symm)
  · rw [isSome_ramText?]
    rintro (⟨hcall, -⟩ | ⟨haddress, -⟩)
    · -- a call is no load
      have hoperator : insn.operator = "bl" ∨ insn.operator = "blx" := by
        simpa [isNaturalCall, Thumb2.calls] using (Bool.and_eq_true_iff.1 hcall).1
      unfold strippedOperator at hload
      rcases hoperator with heq | heq <;> rw [heq] at hload <;> exact absurd hload (by decide)
    · simp [isAddressGenerator, hload, Thumb2.addressGenerators] at haddress
  · rw [isSome_tailCallText?]
    rintro ⟨hforced, hunconditional, -⟩
    -- a load with a condition may fall through, and a tail call does not
    have hclass : insn.callClass ≠ .suppressed := by
      rw [beq_iff_eq.1 hforced]
      decide
    rw [isUnconditional, neverFallsThrough_of_conditionalLoad hload hconditional hclass,
      Bool.and_false] at hunconditional
    cases hunconditional

end Instruction

namespace PlacedBlock

open Thumb2

variable {placed : PlacedBlock} {register text : String} {insn : Instruction} {asm : Assembler}
  {target operand : List Char} {r : Fin 16}
  (hascending : placed.block.instructions.Pairwise (·.line < ·.line))
  (hinsn : insn ∈ placed.block.instructions)

include hascending hinsn in
/-- The only text in the place of an entry. -/
theorem replacements_eq_singleton (hread : placed.block.tail.IsRead)
    (h : text ∈ placed.replacements register insn.line) :
    placed.replacements register insn.line = [text] := by
  have hlength := @length_replacements_le _ register _ hascending hinsn hread
  cases hreplacements : placed.replacements register insn.line with
  | nil =>
    rw [hreplacements] at h
    cases h
  | cons first rest =>
    rw [hreplacements] at h hlength
    have hrest : rest.length = 0 := Nat.le_zero.1 (Nat.le_of_succ_le_succ hlength)
    obtain rfl := List.length_eq_zero_iff.1 hrest
    rw [List.mem_singleton.1 h]

include hascending hinsn in
/-- A conditional load is not replaced: its mnemonic is not the one that is looked for. -/
theorem replacements_of_conditionalLoad (hload : insn.strippedOperator = "ldr")
    (hconditional : insn.IsConditional) : placed.replacements register insn.line = [] := by
  obtain ⟨hloadText, hramText, htailText⟩ :=
    Instruction.texts_of_conditionalLoad hload hconditional register
  rw [replacements_eq hascending hinsn, hloadText, hramText]
  split
  · split
    next h => rw [tail_eq_of_line_eq hascending hinsn h.1, htailText]; rfl
    next => rfl
  · rfl

section Read

variable (htail : placed.block.tail.IsRead) (hplain : Source.Plain insn.operands)
  (hcut : Text.cutFirst ',' insn.operands.toList = some (target, operand))
  (hregister : asm.register? (Text.strip (String.ofList target)) = some r)

include hascending hinsn htail hplain hcut hregister

/-- A load without a condition is replaced by a literal and the word to which it leads. -/
theorem replacements_of_load (hform : insn.isLiteralForm = true)
    (hoperator : insn.operator = "ldr") :
    ∃ text, placed.replacements register insn.line = [text] ∧
      (Text.piecesOf '\n' text).mapM asm.accessOn? =
        some [⟨none, r, .literal (Text.strip (String.ofList operand))⟩, ⟨none, r, .pointer r⟩] := by
  have htext := Instruction.loadText?_eq hform hcut hoperator
  exact ⟨_, replacements_eq_singleton hascending hinsn htail
      (mem_replacements.2 (.inl ⟨insn, hinsn, rfl, htext⟩)),
    Assembler.mapM_accessOn?_literal_pointer hregister (Text.strip_strip _)
      (Instruction.plain_of_cutFirst hplain hcut)⟩

/-- In RAM, an `adr` is replaced by a literal, whatever its condition. -/
theorem replacements_of_address (hram : placed.inRam = true)
    (haddress : insn.isAddressGenerator = true) :
    ∃ text, placed.replacements register insn.line = [text] ∧
      (Text.piecesOf '\n' text).mapM asm.accessOn? =
        some [⟨none, r, .literal (Text.strip (String.ofList operand))⟩] := by
  have htext := Instruction.ramText?_eq haddress hcut register
  exact ⟨_, replacements_eq_singleton hascending hinsn htail
      (mem_replacements.2 (.inr ⟨hram, .inl ⟨insn, hinsn, rfl, htext⟩⟩)),
    Assembler.mapM_accessOn?_literal hregister (Text.strip_strip _)
      (Instruction.plain_of_cutFirst hplain hcut)⟩

end Read

end PlacedBlock

/-! ## What stands in the place of a line -/

/-- Whether the passage is the line, or was put in its place. -/
def Passage.standsFor (passage : Passage) (line : Nat) : Bool :=
  passage.line == line && (passage.origin == .source || passage.origin == .inPlace)

namespace EditList

variable {edits : EditList} {source : List String} {line : Nat} {text : String}

/-- The line itself, or what was put in its place, without what stands before and behind it. -/
def standing (edits : EditList) (source : List String) (line : Nat) : List Passage :=
  (edits.passages source).filter (·.standsFor line)

/-- What stands in place of a line is found at that line. -/
theorem standing_eq (h : source[line]? = some text) :
    edits.standing source line = (edits.atLine line).middle line text := by
  -- the passages of other lines drop out, and those before and behind this one
  have hnone : ∀ passages : List Passage, (∀ passage ∈ passages, passage.line ≠ line ∨
      passage.origin = .before ∨ passage.origin = .after) →
        passages.filter (·.standsFor line) = [] := by
    refine fun passages hpassages => List.filter_eq_nil_iff.2 fun passage hpassage => ?_
    rcases hpassages passage hpassage with hline | horigin | horigin <;> simp [Passage.standsFor, *]
  have hearlier := hnone (edits.passages (source.take line)) fun passage hpassage => by
    obtain ⟨_, htext, -⟩ := mem_passages.1 hpassage
    have hshort := (List.getElem?_eq_some_iff.1 htext).1
    rw [List.length_take] at hshort
    exact .inl (by omega)
  have hlater := hnone (edits.passagesFrom (line + 1) (source.drop (line + 1)))
    fun passage hpassage => by
      obtain ⟨i, _, -, hmem⟩ := mem_passagesFrom.1 hpassage
      rw [LineEdits.line_of_mem_passages hmem]
      exact .inl (by omega)
  have hbefore := hnone ((edits.atLine line).before.map fun text => ⟨.before, line, text⟩)
    (List.forall_mem_map.2 fun _ _ => .inr (.inl rfl))
  have hafter := hnone ((edits.atLine line).after.map fun text => ⟨.after, line, text⟩)
    (List.forall_mem_map.2 fun _ _ => .inr (.inr rfl))
  have hmiddle : ((edits.atLine line).middle line text).filter (·.standsFor line) =
      (edits.atLine line).middle line text := by
    refine List.filter_eq_self.2 fun passage hpassage => ?_
    rcases LineEdits.cases_of_mem_middle hpassage with rfl | ⟨text, -, rfl⟩ <;>
      simp [Passage.standsFor]
  rw [standing, passages_eq h, LineEdits.passages]
  simp only [List.filter_append, hearlier, hlater, hbefore, hafter, hmiddle, List.nil_append,
    List.append_nil]

theorem standing_of_inPlace {replacement : String} (h : source[line]? = some text)
    (hinPlace : (edits.atLine line).inPlace = [replacement]) :
    edits.standing source line = [⟨.inPlace, line, replacement⟩] := by
  rw [standing_eq h, LineEdits.middle, hinPlace]
  rfl

end EditList

/-! ## References of a unit -/

namespace SourceUnit

open Thumb2

variable {unit : SourceUnit} {edits : EditList} {line : Nat} {asm : Assembler} {original : Access}
  {text : String} {accesses : List Access}

/-- In the place of a line stands a text, of which every line is read, that keeps a reference. -/
def KeepsReference (asm : Assembler) (unit : SourceUnit) (edits : EditList) (line : Nat)
    (original : Access) : Prop :=
  ∃ text accesses, edits.standing unit.lines line = [⟨.inPlace, line, text⟩] ∧
    (Text.piecesOf '\n' text).mapM asm.accessOn? = some accesses ∧ original.KeptBy asm accesses

/-- Where one text stands in place of a line, the reference is kept if its accesses keep it. -/
theorem keepsReference_iff_keptBy
    (hstanding : edits.standing unit.lines line = [⟨.inPlace, line, text⟩])
    (haccesses : (Text.piecesOf '\n' text).mapM asm.accessOn? = some accesses) :
    unit.KeepsReference asm edits line original ↔ original.KeptBy asm accesses := by
  refine ⟨?_, fun h => ⟨text, accesses, hstanding, haccesses, h⟩⟩
  rintro ⟨text', accesses', hstanding', haccesses', h⟩
  obtain rfl : text = text' := by simpa [hstanding] using hstanding'
  rw [haccesses] at haccesses'
  exact Option.some.inj haccesses' ▸ h

/-- A line without a text in its place keeps no reference. -/
theorem not_keepsReference (hinPlace : (edits.atLine line).inPlace = [])
    (hlt : line < unit.lines.length) : ¬ unit.KeepsReference asm edits line original := by
  rintro ⟨text, accesses, hstanding, -⟩
  rw [EditList.standing_eq (List.getElem?_eq_getElem hlt), LineEdits.middle, hinPlace] at hstanding
  simp only [List.isEmpty_nil, if_true] at hstanding
  split at hstanding
  · cases hstanding
  · cases hstanding

variable {routines : RoutineLabels} {graphs : List Graph} {register : String}
  {stats : RelocationStats} {placed : PlacedBlock} {insn : Instruction} {r : Fin 16}

/-- The texts in the place of an entry after the relocation. -/
theorem inPlace_atLine (hplaces : unit.Places routines (unit.placedBlocks graphs))
    (hparsed : unit.Parsed)
    (hrelocate : (unit.relocate register graphs).run.value = .ok (edits, stats))
    (hplaced : placed ∈ unit.placedBlocks graphs) (hinsn : insn ∈ placed.block.instructions) :
    (edits.atLine insn.line).inPlace = placed.replacements register insn.line := by
  rw [(relocate_cases hrelocate).2.1, changesAt_of_standsOn (hplaces.disjointLines hparsed) hplaced
    ⟨insn, hinsn, rfl⟩]
  exact PlacedBlock.inPlace_change

/-- A relocation keeps the reference of a literal form in RAM exactly if the mnemonic carries no
condition and no word is loaded to the program counter. -/
theorem keepsReference_iff (hparsed : unit.Parsed)
    (hown : List.Forall₂ Graph.Alike (unit.routinesIn routines)
      (graphs.filter (·.unit == unit.name)))
    (hrelocate : (unit.relocate register graphs).run.value = .ok (edits, stats))
    (hplaced : placed ∈ unit.placedBlocks graphs) (hram : placed.inRam = true)
    (hinsn : insn ∈ placed.block.instructions) (hform : insn.isLiteralForm = true)
    (hsymbol : insn.literalSymbol?.isSome = true)
    (hregister : asm.register? insn.targetName = some r) :
    ∃ original, asm.access? insn.operator.toList insn.operands.toList = some original ∧
      original.register = r ∧
      (unit.KeepsReference asm edits insn.line original ↔
        ¬ insn.IsConditional ∧ (insn.isAddressGenerator = true ∨ r ≠ Machine.programCounter)) := by
  have hplaces := places_of_routinesIn hparsed.fresh hown
  obtain ⟨u, hblock⟩ := hplaces.isBlock placed hplaced
  have hascending := hblock.pairwise_line hparsed
  have htail := hblock.isRead_tail hparsed
  have hlt := hblock.line_lt hparsed hinsn
  have hinPlace := inPlace_atLine hplaces hparsed hrelocate hplaced hinsn
  have hplain : Source.Plain insn.operands := (hparsed.isRead insn.plain
    (List.mem_of_getElem? (hblock.getElem?_address hparsed.fresh hinsn))).plain
  obtain ⟨target, operand, hcut, htarget⟩ := Instruction.exists_cutFirst hsymbol
  rw [htarget] at hregister
  obtain ⟨condition?, hcondition, haccess⟩ := Instruction.exists_access? hform hcut hregister
  refine ⟨_, haccess, rfl, ?_⟩
  rcases (Instruction.isLiteralForm_cases hform).1 with ⟨hload, haddress⟩ | ⟨-, haddress⟩
  · rw [haddress]
    by_cases hconditional : insn.IsConditional
    · -- the load stays as it is
      rw [PlacedBlock.replacements_of_conditionalLoad hascending hinsn hload hconditional]
        at hinPlace
      exact iff_of_false (not_keepsReference hinPlace hlt) fun h => h.1 hconditional
    · have hoperator : insn.operator = "ldr" := (not_not.1 hconditional).symm.trans hload
      obtain ⟨text, htext, haccesses⟩ := PlacedBlock.replacements_of_load hascending hinsn htail
        hplain hcut hregister hform hoperator
      rw [keepsReference_iff_keptBy (EditList.standing_of_inPlace (List.getElem?_eq_getElem hlt)
        (hinPlace.trans htext)) haccesses]
      refine Access.keptBy_literal_pointer_iff.trans (and_congr hcondition ?_)
      simp
  · obtain ⟨text, htext, haccesses⟩ := PlacedBlock.replacements_of_address hascending hinsn htail
      hplain hcut hregister hram haddress
    rw [haddress, keepsReference_iff_keptBy (EditList.standing_of_inPlace
      (List.getElem?_eq_getElem hlt) (hinPlace.trans htext)) haccesses]
    refine Access.keptBy_literal_iff.trans (hcondition.trans ?_)
    simp

end SourceUnit

namespace Program

open SourceUnit Thumb2

/-- All labels are at one address. -/
def oneAddress : Assembler := .ofAddresses fun _ => 0x8000100

/-- The theorem applied to the `adr` in the block of `twoArms` that is placed in RAM. -/
theorem keepsReference_iff_twoArms : ∃ edits stats placed insn original, twoArms.Parsed ∧
    List.Forall₂ Graph.Alike (twoArms.routinesIn (RamOverlay.routineLabels [twoArms]))
      (twoArmsPlaced.filter (·.unit == twoArms.name)) ∧
    (twoArms.relocate "r5" twoArmsPlaced).run.value = .ok (edits, stats) ∧
    placed ∈ twoArms.placedBlocks twoArmsPlaced ∧ placed.inRam = true ∧
    insn ∈ placed.block.instructions ∧ insn.isLiteralForm = true ∧
    insn.literalSymbol?.isSome = true ∧ oneAddress.register? insn.targetName = some 1 ∧
    oneAddress.access? insn.operator.toList insn.operands.toList = some original ∧
    twoArms.KeepsReference oneAddress edits insn.line original := by
  obtain ⟨stats, hrelocate⟩ := relocate_twoArms
  have hnames : ([twoArms].map (·.name)).Nodup := List.nodup_singleton _
  have hparsed := parsed_twoArms twoArms (List.mem_singleton_self _)
  have hown := isPlacement_twoArms.alike_filter parsed_twoArms hnames (List.mem_singleton_self _)
  have hblocks : ((twoArms.placedBlocks twoArmsPlaced).any fun p => p.inRam &&
      p.block.instructions.any fun insn => insn.isLiteralForm && insn.literalSymbol?.isSome &&
        decide (oneAddress.register? insn.targetName = some 1) && decide (¬ insn.IsConditional) &&
          insn.isAddressGenerator) = true := by
    decide +kernel
  obtain ⟨placed, hplaced, hall⟩ := List.any_eq_true.1 hblocks
  obtain ⟨hram, hinsns⟩ := Bool.and_eq_true_iff.1 hall
  obtain ⟨insn, hinsn, hall⟩ := List.any_eq_true.1 hinsns
  simp only [Bool.and_eq_true, decide_eq_true_eq] at hall
  obtain ⟨⟨⟨⟨hform, hsymbol⟩, hregister⟩, hconditional⟩, haddress⟩ := hall
  obtain ⟨original, haccess, -, hkept⟩ := keepsReference_iff hparsed hown hrelocate hplaced hram
    hinsn hform hsymbol hregister
  exact ⟨_, stats, placed, insn, original, hparsed, hown, hrelocate, hplaced, hram, hinsn, hform,
    hsymbol, hregister, haccess, hkept.2 ⟨hconditional, .inl haddress⟩⟩

/-- An address is made under a condition. -/
def conditionalAddress : SourceUnit :=
  (SourceUnit.parse "t.s" ("\t.type\tf, %function\nf:\n\tcmp\tr0, #0\n\tit\tne\n\tadrne\tr1, .L9\n"
    ++ "\tbx\tlr\n.L9:\n\t.word\t1\n")).value

/-- Its only block is in RAM. -/
def conditionalAddressPlaced : List Graph :=
  (RamOverlay.placeForced { forced := [⟨"t.s", 1⟩] } (builtGraphs [conditionalAddress])).value.1

/-- The condition is lost with the `adr`, so that the register is written in any case. -/
theorem condition_lost_conditionalAddress : ∃ edits stats placed insn original,
    conditionalAddress.Parsed ∧
    ({ units := [conditionalAddress] } : Program).IsPlacement conditionalAddressPlaced ∧
    (conditionalAddress.relocate "r5" conditionalAddressPlaced).run.value = .ok (edits, stats) ∧
    placed ∈ conditionalAddress.placedBlocks conditionalAddressPlaced ∧ placed.inRam = true ∧
    insn ∈ placed.block.instructions ∧ insn.isLiteralForm = true ∧
    insn.literalSymbol?.isSome = true ∧ oneAddress.register? insn.targetName = some 1 ∧
    oneAddress.access? insn.operator.toList insn.operands.toList = some original ∧
    ¬ conditionalAddress.KeepsReference oneAddress edits insn.line original := by
  have hparsed : ∀ unit ∈ [conditionalAddress], unit.Parsed :=
    List.forall_mem_singleton.2 (.parse _ _)
  have hplacement : ({ units := [conditionalAddress] } : Program).IsPlacement
      conditionalAddressPlaced :=
    (isPlacement_builtGraphs hparsed (List.cons_ne_nil _ _)).placeForced _
  obtain ⟨stats, hrelocate⟩ :=
    @exists_value_relocate conditionalAddress "r5" conditionalAddressPlaced (by decide +kernel)
  have hblocks : ((conditionalAddress.placedBlocks conditionalAddressPlaced).any fun p => p.inRam &&
      p.block.instructions.any fun insn => insn.isLiteralForm && insn.literalSymbol?.isSome &&
        decide (oneAddress.register? insn.targetName = some 1) && insn.line == 4 &&
          decide (oneAddress.access? insn.operator.toList insn.operands.toList =
            some ⟨some .ne, 1, .nearAddress ".L9"⟩)) = true := by
    decide +kernel
  have hstanding : (conditionalAddress.relocationEdits "r5"
      (conditionalAddress.placedBlocks conditionalAddressPlaced)).standing
        conditionalAddress.lines 4 = [⟨.inPlace, 4, "    ldr r1, =.L9"⟩] := by
    decide +kernel
  have haccesses : (Text.piecesOf '\n' "    ldr r1, =.L9").mapM oneAddress.accessOn? =
      some [⟨none, 1, .literal ".L9"⟩] := by
    decide +kernel
  obtain ⟨placed, hplaced, hall⟩ := List.any_eq_true.1 hblocks
  obtain ⟨hram, hinsns⟩ := Bool.and_eq_true_iff.1 hall
  obtain ⟨insn, hinsn, hall⟩ := List.any_eq_true.1 hinsns
  simp only [Bool.and_eq_true, decide_eq_true_eq, beq_iff_eq] at hall
  obtain ⟨⟨⟨⟨hform, hsymbol⟩, hregister⟩, hline⟩, haccess⟩ := hall
  refine ⟨_, stats, placed, insn, _, hparsed _ (List.mem_singleton_self _), hplacement, hrelocate,
    hplaced, hram, hinsn, hform, hsymbol, hregister, haccess, ?_⟩
  rw [hline, keepsReference_iff_keptBy hstanding haccesses]
  intro hkept
  cases hkept.condition _ (List.mem_singleton_self _)

end Program

end RamOverlay
