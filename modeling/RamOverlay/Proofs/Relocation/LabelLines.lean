import RamOverlay.Proofs.Relocation.EntryLabels
import RamOverlay.Proofs.Relocation.Rewritten

/-!
# Lines that define labels

* **`Source.definesLabel`**: whether a line is read as the definition of a label.
* **`Text.Inert`**: a text no line of which can define the label of a long exit; what relocation
  puts in is of this kind, those labels apart.
* **`definesLabel_fallthroughLabel`**: the labels of long exits are told apart by their lines.
* **`SourceUnit.Parsed.operator_of_definesLabel`**: the entry on a line that defines a label has no
  mnemonic, so such a line is never rewritten.
-/

namespace RamOverlay

namespace Text

/-! ## Texts that define no label of a long exit -/

/-- Every line of the text begins, after its blanks, with another character than `f`. -/
def Inert (text : String) : Prop :=
  ∀ piece ∈ pieces '\n' text.toList, ((trimLeft piece).head?.any (· != 'f')) = true

instance (text : String) : Decidable (Inert text) :=
  inferInstanceAs (Decidable (∀ piece ∈ pieces '\n' text.toList,
    ((trimLeft piece).head?.any (· != 'f')) = true))

namespace Inert

variable {s t text : String}

/-- More text on the last line. -/
theorem line (h : Inert s) (ht : '\n' ∉ t.toList) : Inert (s ++ t) := by
  obtain ⟨init, last, hs, hall⟩ := exists_pieces_append ht s.toList
  unfold Inert at h ⊢
  rw [String.toList_append, hall]
  rw [hs] at h
  intro piece hpiece
  rcases List.mem_append.1 hpiece with hpiece | hpiece
  · exact h piece (List.mem_append_left _ hpiece)
  · rw [List.mem_singleton.1 hpiece]
    -- the last line begins as before, so only its end is new
    have hlast := h last (List.mem_append_right _ List.mem_cons_self)
    cases hhead : (trimLeft last).head? with
    | none => rw [hhead] at hlast; cases hlast
    | some c =>
      rw [hhead] at hlast
      rwa [head?_trimLeft_append hhead]

/-- More lines, behind the rest of the last one. -/
theorem next (h : Inert s) (rest : String) (hrest : '\n' ∉ rest.toList) (ht : Inert t) :
    Inert (s ++ (rest ++ "\n" ++ t)) := by
  have hs := h.line hrest
  have htext : (s ++ (rest ++ "\n" ++ t)).toList = (s ++ rest).toList ++ '\n' :: t.toList := by
    simp [String.toList_append]
  unfold Inert
  rw [htext, pieces_append_sep]
  exact List.forall_mem_append.2 ⟨hs, ht⟩

end Inert

end Text

/-! ## Definitions of labels -/

namespace Source

/-- Whether a line defines the label. -/
def definesLabel (label line : String) : Bool :=
  match Line.classify line.toList with
  | .label name _ => name == label.toList
  | .instruction .. | .ignored | .unmatched => false

/-- A line defines a label only if the parser reads it as that label. -/
theorem classify_of_definesLabel {label line : String} (h : definesLabel label line = true) :
    ∃ followed, Line.classify line.toList = .label label.toList followed := by
  unfold definesLabel at h
  split at h
  next name followed heq => exact ⟨followed, beq_iff_eq.1 h ▸ heq⟩
  next => cases h
  next => cases h
  next => cases h

theorem Line.ofStatement_ne_label {cs name : List Char} {followed : Bool} :
    Line.ofStatement cs ≠ .label name followed := by
  unfold Line.ofStatement
  split <;> exact Line.noConfusion

/-- A label is what stands before the only colon of its line. -/
theorem Line.pieces_of_classify_eq_label {cs name : List Char} {followed : Bool}
    (h : Line.classify cs = .label name followed) :
    ∃ head tail, Text.pieces ':' cs = [head, tail] ∧ Text.trim head = name := by
  unfold Line.classify at h
  dsimp only at h
  split at h
  · cases h
  · split at h
    -- two pieces without a blank before the colon are a label, all else is none
    next head tail hpieces =>
      split at h
      next =>
        split at h
        · cases h
        · cases h
        · exact absurd h Line.ofStatement_ne_label
      next => exact ⟨head, tail, hpieces, (Line.label.inj h).1⟩
    next =>
      split at h
      · cases h
      · cases h
      · exact absurd h Line.ofStatement_ne_label

/-- A line begins, after its blanks, with the label that it defines. -/
theorem head?_of_definesLabel {label line : String} {c : Char}
    (hlabel : label.toList.head? = some c) (h : definesLabel label line = true) :
    (Text.trimLeft line.toList).head? = some c := by
  obtain ⟨followed, hclassify⟩ := classify_of_definesLabel h
  obtain ⟨head, tail, hpieces, hname⟩ := Line.pieces_of_classify_eq_label hclassify
  have hline : head ++ ':' :: tail = line.toList := by
    have hjoined := Text.intercalate_pieces ':' line.toList
    rw [hpieces] at hjoined
    simpa using hjoined
  rw [← hline]
  exact Text.head?_trimLeft_append (Text.head?_trimLeft_of_trim (hname ▸ hlabel)) _

end Source

section FallthroughLabels

open Source Exit

/-- No line of an inert text defines a fallthrough label. -/
theorem Text.Inert.not_definesLabel {text line : String} (h : Text.Inert text)
    (hline : line ∈ Text.piecesOf '\n' text) (n : Nat) :
    definesLabel (fallthroughLabel n) line = false := by
  obtain ⟨cs, hcs, rfl⟩ := List.mem_map.1 hline
  refine Bool.eq_false_iff.2 fun hdefines => ?_
  have hlabel : (fallthroughLabel n).toList.head? = some 'f' := by
    simp [fallthroughLabel, String.toList_append]
  have hhead := head?_of_definesLabel hlabel hdefines
  rw [String.toList_ofList] at hhead
  have hother := h cs hcs
  rw [hhead] at hother
  cases hother

/-- A fallthrough label has neither blanks nor colons in it. -/
theorem ne_of_mem_fallthroughLabel {n : Nat} {c : Char} (hc : c ∈ (fallthroughLabel n).toList) :
    Text.isBlank c = false ∧ c ≠ ':' ∧ c ≠ ' ' ∧ c ≠ '\t' := by
  rw [fallthroughLabel, String.toList_append, List.mem_append] at hc
  rcases hc with hc | hc
  · have hall : ("fallthrough_".toList.all fun c =>
        !Text.isBlank c && c != ':' && c != ' ' && c != '\t') = true := by decide
    simpa [and_assoc] using List.all_eq_true.1 hall c hc
  · have hdigit := Text.isDigit_of_mem_decimal c hc
    refine ⟨Text.isBlank_of_isAlphanum (by simp [Char.isAlphanum, hdigit]), ?_, ?_, ?_⟩ <;>
      rintro rfl <;> revert hdigit <;> decide

/-- A fallthrough label with its colon is read as this label. -/
theorem classify_fallthroughLabel (n : Nat) :
    Line.classify (fallthroughLabel n ++ ":").toList =
      .label (fallthroughLabel n).toList false := by
  have hname : Text.trim (fallthroughLabel n).toList = (fallthroughLabel n).toList :=
    Text.trim_of_not_blank fun c hc => (ne_of_mem_fallthroughLabel hc).1
  have hline : Text.trim ((fallthroughLabel n).toList ++ [':']) =
      (fallthroughLabel n).toList ++ [':'] := by
    refine Text.trim_of_not_blank (List.forall_mem_append.2 ⟨fun c hc => ?_, ?_⟩)
    · exact (ne_of_mem_fallthroughLabel hc).1
    · exact List.forall_mem_singleton.2 (by decide)
  -- the colon at the end is the only one
  have hpieces : Text.pieces ':' ((fallthroughLabel n).toList ++ [':']) =
      [(fallthroughLabel n).toList, []] :=
    Text.pieces_append_cons (fun hmem => (ne_of_mem_fallthroughLabel hmem).2.1 rfl) []
  have hany : ((fallthroughLabel n).toList.any fun c => c == ' ' || c == '\t') = false := by
    refine List.any_eq_false.2 fun c hc => ?_
    obtain ⟨-, -, hspace, htab⟩ := ne_of_mem_fallthroughLabel hc
    simp [hspace, htab]
  rw [String.toList_append, show (":" : String).toList = [':'] from rfl]
  unfold Line.classify
  rw [hline, hpieces]
  dsimp only
  rw [if_neg (by simp), hname, hany, if_neg Bool.false_ne_true]
  rfl

/-- The line of a label of a long exit defines this label, and no other one. -/
theorem definesLabel_fallthroughLabel (m n : Nat) :
    definesLabel (fallthroughLabel n) (fallthroughLabel m ++ ":") = (m == n) := by
  unfold definesLabel
  rw [classify_fallthroughLabel]
  dsimp only
  rw [Bool.eq_iff_iff, beq_iff_eq, beq_iff_eq, String.toList_inj]
  constructor
  · intro heq
    exact Text.decimal_injective ((String.append_right_inj _).1 heq)
  · rintro rfl
    rfl

end FallthroughLabels

/-! ## The texts that relocation puts in -/

namespace Exit

open Text

variable {exit : Exit} {register : String} {line : Nat}

/-- The code that selects an address defines no label. -/
theorem inert_selection (condition : Thumb2.Condition) (line : Nat) {label : String}
    (hregister : '\n' ∉ register.toList) (hlabel : '\n' ∉ label.toList) :
    Inert (selection register condition label line) := by
  have hsuffix : ∀ condition : Thumb2.Condition, '\n' ∉ condition.suffix.toList := by
    intro condition
    cases condition <;> decide
  have hfallthrough : '\n' ∉ (fallthroughLabel line).toList :=
    fun hmem => (plain_fallthroughLabel line _ hmem).1 rfl
  -- a load of an address on a line of its own, behind any text
  have hload : ∀ {s label : String} (condition : Thumb2.Condition), '\n' ∉ label.toList → Inert s →
      Inert (s ++ "\n    ldr" ++ condition.suffix ++ " " ++ register ++ ", =" ++ label ++ "+1") :=
    fun condition hlabel hs => ((((((hs.next "" (by decide) (t := "    ldr") (by decide)).line
      (hsuffix condition)).line (by decide)).line hregister).line (by decide)).line hlabel).line
      (by decide)
  have htest : Inert ("    ite " ++ condition.suffix) :=
    Inert.line (by decide) (hsuffix condition)
  have hloads := hload condition.inverse hfallthrough (hload condition hlabel htest)
  exact (hloads.next "" (by decide) (t := "    bx ") (by decide)).line hregister

/-- Neither does any code of an exit. -/
theorem inert_code (hregister : '\n' ∉ register.toList) (hexit : exit.IsPlain) :
    Inert (exit.code register line) := by
  have hplain : ∀ {label : String}, Source.Plain label → '\n' ∉ label.toList :=
    fun h hmem => (h _ hmem).1 rfl
  -- every exit ends with a pool of constants on a line of its own
  have hpool : Inert "    .ltorg" := by decide
  have hjump : ∀ {s label : String}, Inert s → '\n' ∉ label.toList →
      Inert (s ++ label ++ "+1\n    .ltorg") := by
    intro s label hs hlabel
    have hlast : "+1\n    .ltorg" = "+1" ++ "\n" ++ "    .ltorg" := rfl
    rw [hlast]
    exact (hs.line hlabel).next "+1" (by decide) hpool
  cases exit with
  | compare condition compared label =>
    have hselection := inert_selection condition line hregister (hplain hexit.2)
    have hcompare : Inert ("    # cbz/cbnz conditional indirect\n    cmp " ++ compared) :=
      Inert.line (by decide) (hplain hexit.1)
    have hzero : ", #0\n" = ", #0" ++ "\n" := rfl
    have hlast : "\n    .ltorg" = "" ++ "\n" ++ "    .ltorg" := rfl
    have hcode := hcompare.next ", #0" (by decide) hselection
    rw [← String.append_assoc] at hcode
    unfold code
    dsimp only
    rw [hzero, hlast]
    exact hcode.next "" (by decide) hpool
  | always label =>
    unfold code
    exact hjump (by decide) (hplain hexit)
  | fallthrough =>
    unfold code
    exact hjump (by decide) (hplain (plain_fallthroughLabel line))
  | conditional condition label =>
    have hselection := inert_selection condition line hregister (hplain hexit)
    have hcomment : "    # Conditional indirect\n" ++ selection register condition label line =
        "    # Conditional indirect" ++
          ("" ++ "\n" ++ selection register condition label line) := by
      rw [← String.append_assoc]
      rfl
    have hlast : "\n.ltorg" = "" ++ "\n" ++ ".ltorg" := rfl
    unfold code
    dsimp only
    rw [hcomment, hlast]
    exact (Inert.next (by decide) "" (by decide) hselection).next "" (by decide) (by decide)

end Exit

namespace Instruction

open Text

variable {insn : Instruction} {register text : String}

theorem eq_of_label? {destination : Destination} {label : String}
    (h : destination.label? = some label) : destination = .label label := by
  cases destination with
  | notApplicable => cases h
  | indirect => cases h
  | label name => exact congrArg Destination.label (Option.some.inj h)

/-- Both parts of plain operands are on one line. -/
theorem not_newline_of_cutFirstOf {before after : String} (hplain : Source.Plain insn.operands)
    (h : cutFirstOf ',' insn.operands = some (before, after)) :
    '\n' ∉ (strip before).toList ∧ '\n' ∉ (strip after).toList := by
  obtain ⟨⟨front, back⟩, hcut, heq⟩ := Option.map_eq_some_iff.1 h
  obtain ⟨rfl, rfl⟩ := Prod.mk.inj heq
  have hoperands := (eq_of_cutFirst hcut).1
  -- what is made of characters of the operands has no newline either
  have hnone : ∀ cs : List Char, (∀ c ∈ cs, c ∈ insn.operands.toList) →
      '\n' ∉ (strip (String.ofList cs)).toList := by
    intro cs hcs hmem
    rw [toList_strip, String.toList_ofList] at hmem
    exact (hplain _ (hcs _ (mem_of_mem_trim hmem))).1 rfl
  refine ⟨hnone front fun c hc => ?_, hnone back fun c hc => ?_⟩
  · rw [hoperands]
    exact List.mem_append_left _ hc
  · rw [hoperands]
    exact List.mem_append_right _ (List.mem_cons_of_mem _ hc)

theorem inert_loadText? (hplain : Source.Plain insn.operands) (h : insn.loadText? = some text) :
    Inert text := by
  unfold loadText? at h
  obtain ⟨⟨register, symbol⟩, hload, rfl⟩ := Option.map_eq_some_iff.1 h
  unfold literalLoad? at hload
  dsimp only at hload
  split at hload
  · obtain ⟨⟨before, after⟩, hcut, heq⟩ := Option.map_eq_some_iff.1 hload
    obtain ⟨rfl, rfl⟩ := Prod.mk.inj heq
    obtain ⟨hregister, hsymbol⟩ := not_newline_of_cutFirstOf hplain hcut
    have hfirst : Inert ("    ldr " ++ strip before ++ ", =" ++ strip after) :=
      ((Inert.line (by decide) hregister).line (by decide)).line hsymbol
    -- the second load is on a line of its own
    have hsecond := hfirst.next "" (by decide) (t := "    ldr ") (by decide)
    exact (((hsecond.line hregister).line (by decide)).line hregister).line (by decide)
  · cases hload

theorem inert_ramText? (hplain : Source.Plain insn.operands) (hregister : '\n' ∉ register.toList)
    (h : insn.ramText? register = some text) : Inert text := by
  unfold ramText? at h
  split at h
  · obtain ⟨label, hlabel, rfl⟩ := Option.map_eq_some_iff.1 h
    have hname := fun hmem => (plain_of_destination hplain (eq_of_label? hlabel) _ hmem).1 rfl
    have hfirst : Inert ("    ldr " ++ register ++ ", =" ++ label) :=
      ((Inert.line (by decide) hregister).line (by decide)).line hname
    -- a call is a load and a `blx` below it, an address is a single load
    exact (hfirst.next "" (by decide) (t := "    blx ") (by decide)).line hregister
  · split at h
    · obtain ⟨⟨before, after⟩, hcut, rfl⟩ := Option.map_eq_some_iff.1 h
      obtain ⟨htarget, hsymbol⟩ := not_newline_of_cutFirstOf hplain hcut
      exact ((Inert.line (by decide) htarget).line (by decide)).line hsymbol
    · cases h

theorem inert_tailCallText? (hplain : Source.Plain insn.operands)
    (h : insn.tailCallText? = some text) : Inert text := by
  unfold tailCallText? at h
  split at h
  · obtain ⟨label, hlabel, rfl⟩ := Option.map_eq_some_iff.1 h
    have hname := fun hmem => (plain_of_destination hplain (eq_of_label? hlabel) _ hmem).1 rfl
    exact (Inert.line (by decide) hname).line (by decide)
  · cases h

end Instruction

namespace PlacedBlock

open Text

variable {placed : PlacedBlock} {unit register text : String} {line : Nat}

theorem inert_mark (hunit : '\n' ∉ unit.toList) : Inert (placed.mark unit) :=
  ((Inert.line (by decide) hunit).line (by decide)).line (not_newline_of_mem_decimal _)

theorem inert_opening (hunit : '\n' ∉ unit.toList) : ∀ text ∈ placed.opening unit, Inert text := by
  have hmark : Inert (placed.mark unit) := inert_mark hunit
  have hcount : Inert ("# INSTRUMENTED " ++ decimal placed.block.line) :=
    Inert.line (by decide) (not_newline_of_mem_decimal _)
  unfold opening
  refine List.forall_mem_cons.2 ⟨by decide, List.forall_mem_append.2 ⟨?_,
    List.forall_mem_append.2 ⟨?_, ?_⟩⟩⟩
  · exact forall_mem_ite (List.forall_mem_singleton.2 hcount) (List.forall_mem_nil _)
  · exact forall_mem_ite (List.forall_mem_singleton.2 (by decide)) (List.forall_mem_nil _)
  · exact forall_mem_ite (List.forall_mem_nil _) (List.forall_mem_singleton.2 hmark)

/-- What stands behind a block defines no label. -/
theorem inert_closing (hregister : '\n' ∉ register.toList) (hread : placed.block.tail.IsRead) :
    ∀ text ∈ placed.closing unit register, Inert text := by
  unfold closing
  refine List.forall_mem_append.2 ⟨?_, List.forall_mem_append.2 ⟨?_, ?_⟩⟩
  · exact forall_mem_ite (List.forall_mem_singleton.2 (by decide)) (List.forall_mem_nil _)
  · intro text htext
    obtain ⟨exit, hexit, rfl⟩ := Option.map_eq_some_iff.1 (Option.mem_toList.1 htext)
    have hleaves := placed.block.leavesBy (exit?_eq_some.1 hexit).2
    exact Exit.inert_code hregister (hleaves.isPlain hread)
  · exact forall_mem_ite (List.forall_mem_singleton.2 (by decide)) (List.forall_mem_nil _)

/-- What replaces a line defines no label. -/
theorem inert_replacements (hregister : '\n' ∉ register.toList)
    (hplain : ∀ insn ∈ placed.block.instructions, Source.Plain insn.operands) :
    ∀ text ∈ placed.replacements register line, Inert text := by
  intro text htext
  rcases mem_replacements.1 htext with ⟨insn, hinsn, -, hsome⟩ |
    ⟨-, ⟨insn, hinsn, -, hsome⟩ | ⟨-, hsome⟩⟩
  · exact Instruction.inert_loadText? (hplain insn hinsn) hsome
  · exact Instruction.inert_ramText? (hplain insn hinsn) hregister hsome
  · have htail := placed.block.tail_mem
    exact Instruction.inert_tailCallText? (hplain _ htail) hsome

end PlacedBlock

/-! ## Entries on lines that define labels -/

theorem Instruction.operator_ne_of_isBranch {insn : Instruction} (hread : insn.IsRead)
    (h : insn.isBranch = true) : insn.operator ≠ "" := by
  intro hoperator
  have hclass : insn.callClass ≠ .suppressed := by
    intro hsuppressed
    have hcall := hread.suppressed hsuppressed
    simp [isNaturalCall, hoperator, Thumb2.calls] at hcall
  have hclass : (insn.callClass == .suppressed) = false := beq_eq_false_iff_ne.2 hclass
  have hno : insn.isBranch = false := by
    simp only [isBranch, neverFallsThrough, loadsPc, writesPc, isTableBranch, isCompareBranch,
      hoperator, hclass]
    rfl
  exact absurd (hno.symm.trans h) Bool.false_ne_true

/-- A line that is rewritten has an entry with a mnemonic. -/
theorem PlacedBlock.Rewrites.exists_operator_ne {placed : PlacedBlock} {line : Nat}
    (h : placed.Rewrites line) (hread : placed.block.tail.IsRead) :
    ∃ insn ∈ placed.block.instructions, insn.line = line ∧ insn.operator ≠ "" := by
  have htail := placed.block.tail_mem
  cases h with
  | load hinsn hline hoperator => exact ⟨_, hinsn, hline, by rw [hoperator]; decide⟩
  | exit hline _ hbranch =>
    exact ⟨_, htail, hline, Instruction.operator_ne_of_isBranch hread hbranch⟩
  | call _ hinsn hline hcall =>
    -- the empty mnemonic is none of those that are rewritten
    refine ⟨_, hinsn, hline, fun hoperator => ?_⟩
    simp [Instruction.isCall, Instruction.isNaturalCall, hoperator, Thumb2.calls] at hcall
  | address _ hinsn hline haddress =>
    refine ⟨_, hinsn, hline, fun hoperator => ?_⟩
    obtain ⟨rest, hrest⟩ := Instruction.operator_of_isAddressGenerator haddress
    rw [hoperator] at hrest
    cases hrest
  | tailCall _ _ hline _ hunconditional =>
    exact ⟨_, htail, hline, Instruction.operator_ne_of_isBranch hread
      (Bool.and_eq_true_iff.1 hunconditional).1⟩

namespace SourceUnit

open Source

variable {unit : SourceUnit} {insn : Instruction} {label text : String}

/-- The entry on a line that defines a label is that label, and has no mnemonic. -/
theorem Parsed.operator_of_definesLabel (h : unit.Parsed) (hinsn : insn ∈ unit.instructions)
    (hline : unit.lines[insn.line]? = some text) (hdefines : definesLabel label text = true) :
    insn.operator = "" := by
  induction h generalizing insn with
  | parse name source =>
    obtain ⟨i, cs, a, hcs, heq, hentry⟩ := exists_entry_of_mem_entriesFrom hinsn
    -- the kept line is the one that the entry was read from, unless it is kept empty
    have hkept : (SourceUnit.parse name source).value.lines[insn.line]? = some (keptLine cs) := by
      show ((Text.lines source.toList).map keptLine)[insn.line]? = _
      rw [List.getElem?_map, heq, Nat.zero_add, hcs, Option.map_some]
    obtain rfl := Option.some.inj (hline.symm.trans hkept)
    obtain ⟨followed, hclassify⟩ := classify_of_definesLabel hdefines
    unfold keptLine at hclassify
    split at hclassify
    · cases hclassify
    · rw [String.toList_ofList] at hclassify
      unfold entry? at hentry
      rw [hclassify] at hentry
      rw [← Option.some.inj hentry]
  | markDelaySlots _ marked ih =>
    obtain ⟨old, hold, heq⟩ := Parsed.exists_of_mem_markDelaySlots hinsn
    have hsame : insn.line = old.line ∧ insn.operator = old.operator := by
      rw [heq]
      exact ⟨rfl, rfl⟩
    rw [hsame.2]
    exact ih hold (hsame.1 ▸ hline)

end SourceUnit

end RamOverlay
