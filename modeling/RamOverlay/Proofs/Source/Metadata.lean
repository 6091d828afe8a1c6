import RamOverlay.Proofs.Source.Entries

/-!
# Which lines are blanked

A line is blanked when it mentions a metadata directive anywhere, in a symbol, in an operand, in a
comment or as the beginning of a longer word. What the line means is found out apart from that, so
that a line with an entry can be blanked too.

* **`mentionsMetadata_iff`**: the search, as a fact about infixes.
* **`IsMetadata`**: a line that begins with a metadata directive and has no entry;
  `mentionsMetadata_of_isMetadata`: all of these are blanked.
* **`entriesFrom_kept`**: the entries that are read again from the kept lines are those on lines
  that mention no metadata.
* **`SourceUnit.keepsLines_iff`**: so no other line and no entry is lost if and only if no other
  line mentions metadata.
-/

namespace RamOverlay

/-! ## Metadata in a line -/

namespace Text

/-- The search finds a text wherever it stands. -/
theorem occursIn_iff {needle cs : List Char} : occursIn needle cs = true ↔ needle <:+: cs := by
  induction cs with
  | nil =>
    show needle.isEmpty = true ↔ _
    rw [List.isEmpty_iff, List.infix_nil]
  | cons c cs ih =>
    show (needle.isPrefixOf (c :: cs) || occursIn needle cs) = true ↔ _
    rw [Bool.or_eq_true, List.isPrefixOf_iff_prefix, ih, List.infix_cons_iff]

end Text

namespace Source

variable {cs : List Char}

/-- The text of a line up to the first blank in it, without the blanks before. -/
def firstToken (cs : List Char) : List Char :=
  (Text.trimLeft cs).takeWhile fun c => !Text.isBlank c

/-- The line is a metadata directive: it has no entry, and begins with a directive for call frames,
for sizes or for places in the source. -/
def IsMetadata (cs : List Char) : Prop :=
  Line.classify cs = .ignored ∧
    (".cfi".toList <+: firstToken cs ∨ firstToken cs = ".size".toList ∨
      firstToken cs = ".loc".toList)

instance (cs : List Char) : Decidable (IsMetadata cs) := inferInstanceAs (Decidable (_ ∧ _))

/-- A line mentions metadata if one of the directives stands anywhere on it. -/
theorem mentionsMetadata_iff : mentionsMetadata cs = true ↔
    ∃ directive ∈ metadataDirectives, directive.toList <:+: cs := by
  show (metadataDirectives.any fun directive => Text.occursIn directive.toList cs) = true ↔ _
  rw [List.any_eq_true]
  exact exists_congr fun directive => and_congr_right fun _ => Text.occursIn_iff

theorem isInfix_firstToken (cs : List Char) : firstToken cs <:+: cs :=
  (List.takeWhile_prefix _).isInfix.trans (List.dropWhile_suffix _).isInfix

/-- All metadata is blanked. -/
theorem mentionsMetadata_of_isMetadata (h : IsMetadata cs) : mentionsMetadata cs = true := by
  have hmentions : ∀ directive ∈ metadataDirectives,
      directive.toList <+: firstToken cs → mentionsMetadata cs = true :=
    fun directive hmem hprefix =>
      mentionsMetadata_iff.2 ⟨directive, hmem, hprefix.isInfix.trans (isInfix_firstToken cs)⟩
  rcases h.2 with hcfi | hsize | hloc
  · exact hmentions ".cfi" (by decide) hcfi
  · exact hmentions ".size" (by decide) (hsize ▸ List.prefix_rfl)
  · exact hmentions ".loc" (by decide) (hloc ▸ List.prefix_rfl)

theorem mentionsMetadata_nil : mentionsMetadata [] = false := by decide

end Source

/-! ## The kept lines -/

namespace SourceUnit

open Source

variable {lines : List (List Char)} {line address address' : Nat}

theorem toList_keptLine (cs : List Char) :
    (keptLine cs).toList = if mentionsMetadata cs then [] else cs := by
  show (if mentionsMetadata cs then "" else String.ofList cs).toList = _
  split
  · rfl
  · exact String.toList_ofList

/-- The entries on the kept lines are those on lines that mention no metadata; `dropped` tells which
lines do. They move up to lower places. -/
theorem entriesFrom_kept (dropped : Nat → Bool)
    (h : ∀ i cs, lines[i]? = some cs → dropped (line + i) = mentionsMetadata cs) :
    (entriesFrom line address (lines.map fun cs => (keptLine cs).toList)).map (·.unplaced) =
      ((entriesFrom line address' lines).filter fun insn => !dropped insn.line).map
        (·.unplaced) := by
  induction lines generalizing line address address' with
  | nil => rfl
  | cons cs lines ih =>
    have hline : dropped line = mentionsMetadata cs := h 0 cs rfl
    have hrest : ∀ i cs, lines[i]? = some cs → dropped (line + 1 + i) = mentionsMetadata cs := by
      intro i cs hcs
      rw [Nat.add_assoc, Nat.add_comm 1 i]
      exact h (i + 1) cs hcs
    rw [List.map_cons, entriesFrom, entriesFrom, toList_keptLine]
    cases hmentions : mentionsMetadata cs with
    | true =>
      -- the line is blank now, and the entry that it had is filtered out
      rw [if_pos rfl, entry_nil]
      cases hentry : entry? line address' cs with
      | none => exact ih hrest
      | some insn =>
        have hdropped : dropped insn.line = true := by
          rw [line_of_entry_eq_some hentry, hline, hmentions]
        show _ = ((insn :: _).filter _).map _
        rw [List.filter_cons_of_neg (by simp [hdropped])]
        exact ih hrest
    | false =>
      rw [if_neg Bool.false_ne_true]
      have hsame := unplaced_entry line address address' cs
      cases hentry : entry? line address' cs with
      | none =>
        rw [hentry, Option.map_none, Option.map_eq_none_iff] at hsame
        rw [hsame]
        exact ih hrest
      | some insn =>
        rw [hentry, Option.map_some, Option.map_eq_some_iff] at hsame
        obtain ⟨insn', hentry', heq⟩ := hsame
        have hdropped : dropped insn.line = false := by
          rw [line_of_entry_eq_some hentry, hline, hmentions]
        rw [hentry']
        show insn'.unplaced :: _ = ((insn :: _).filter _).map _
        rw [List.filter_cons_of_pos (by simp [hdropped]), List.map_cons, heq]
        exact congrArg (insn.unplaced :: ·) (ih hrest)

/-- The unit keeps the lines of its text, but for metadata directives: each line is as it was, or a
metadata directive that was blanked. No line with an entry is blanked, so that the entries are still
read on the kept lines. -/
structure KeepsLines (unit : SourceUnit) (lines : List (List Char)) : Prop where
  length : unit.lines.length = lines.length
  line : ∀ (i : Nat) (cs : List Char), lines[i]? = some cs →
    unit.lines[i]? = some (String.ofList cs) ∨ unit.lines[i]? = some "" ∧ IsMetadata cs
  entry : ∀ insn ∈ unit.instructions, ∀ cs : List Char, lines[insn.line]? = some cs →
    unit.lines[insn.line]? = some (String.ofList cs)
  reread : entriesFrom 0 0 (unit.lines.map String.toList) = unit.instructions

section Parse

variable (name text : String)

/-- Line by line the output has what is kept of the source. -/
theorem getElem?_lines_parse {i : Nat} {cs : List Char}
    (h : (Text.lines text.toList)[i]? = some cs) :
    (parse name text).value.lines[i]? = some (keptLine cs) := by
  show ((Text.lines text.toList).map keptLine)[i]? = _
  rw [List.getElem?_map, h, Option.map_some]

theorem map_toList_lines_parse : (parse name text).value.lines.map String.toList =
    (Text.lines text.toList).map fun cs => (keptLine cs).toList :=
  List.map_map

/-- What is read again from the kept lines has lost the entries on lines that mention metadata, and
no others. -/
theorem reread_parse :
    (entriesFrom 0 0 ((parse name text).value.lines.map String.toList)).map (·.unplaced) =
      ((parse name text).value.instructions.filter fun insn =>
        !((Text.lines text.toList)[insn.line]?.any mentionsMetadata)).map (·.unplaced) := by
  rw [map_toList_lines_parse]
  apply entriesFrom_kept fun line => (Text.lines text.toList)[line]?.any mentionsMetadata
  intro i cs hcs
  show ((Text.lines text.toList)[0 + i]?).any mentionsMetadata = _
  rw [Nat.zero_add, hcs, Option.any_some]

/-- A unit keeps its lines but for metadata directives if and only if all lines that mention
metadata are such directives. -/
theorem keepsLines_iff : (parse name text).value.KeepsLines (Text.lines text.toList) ↔
    ∀ cs ∈ Text.lines text.toList, mentionsMetadata cs = true → IsMetadata cs := by
  constructor
  · intro h cs hcs hmentions
    obtain ⟨i, hi⟩ := List.mem_iff_getElem?.mp hcs
    rcases h.line i cs hi with hkept | ⟨_, hmetadata⟩
    · -- the line was blanked and is as it was, so it was blank before
      have hblank : keptLine cs = "" := if_pos hmentions
      rw [getElem?_lines_parse name text hi, hblank, Option.some_inj] at hkept
      obtain rfl : cs = [] := by
        rw [← String.toList_ofList (l := cs), ← hkept]
        rfl
      rw [mentionsMetadata_nil] at hmentions
      cases hmentions
    · exact hmetadata
  · intro h
    have hentry : ∀ cs ∈ Text.lines text.toList, ∀ line address,
        entry? line address (keptLine cs).toList = entry? line address cs := by
      intro cs hcs line address
      rw [toList_keptLine]
      split
      next hmentions => rw [entry_nil, entry_of_ignored (h cs hcs hmentions).1]
      next => rfl
    refine ⟨List.length_map .., fun i cs hi => ?_, fun insn hinsn cs hcs => ?_, ?_⟩
    · rw [getElem?_lines_parse name text hi]
      cases hmentions : mentionsMetadata cs with
      | true =>
        exact .inr ⟨congrArg some (if_pos hmentions), h cs (List.mem_of_getElem? hi) hmentions⟩
      | false => exact .inl (congrArg some (if_neg (by simp [hmentions])))
    · rw [getElem?_lines_parse name text hcs]
      refine congrArg some (if_neg fun hmentions => ?_)
      -- a line with an entry is no metadata directive
      obtain ⟨i, cs', a, hcs', hline, hread⟩ := exists_entry_of_mem_entriesFrom hinsn
      rw [Nat.zero_add] at hline
      obtain rfl := Option.some.inj (hcs.symm.trans (hline ▸ hcs'))
      rw [entry_of_ignored (h cs (List.mem_of_getElem? hcs) hmentions).1] at hread
      cases hread
    · rw [map_toList_lines_parse]
      exact entriesFrom_congr hentry

end Parse

/-- A function that calls another one by an alias of the compiler, beside a local variable. -/
def aliasCaller : String :=
  "\t.local\tcount\n\t.comm\tcount,4,4\n\t.type\tf, %function\nf:\n\tbl\tg.localalias\n\tbx\tlr\n"

/-- The directive for the variable is blanked, and the call too: both hold the letters of the
directive for places in the source. -/
theorem not_keepsLines_aliasCaller :
    (parse "t.s" aliasCaller).value.instructions[1]? =
        some { address := 1, line := 4, operator := "bl", operands := "g.localalias" } ∧
      (parse "t.s" aliasCaller).value.lines[0]? = some "" ∧
      (parse "t.s" aliasCaller).value.lines[4]? = some "" ∧
      ¬ (parse "t.s" aliasCaller).value.KeepsLines (Text.lines aliasCaller.toList) := by
  refine ⟨by decide +kernel, by decide +kernel, by decide +kernel, fun h => ?_⟩
  have hcall : (parse "t.s" aliasCaller).value.instructions[1]? =
    some { address := 1, line := 4, operator := "bl", operands := "g.localalias" } := by
    decide +kernel
  have hkept := h.entry _ (List.mem_of_getElem? hcall) "\tbl\tg.localalias".toList
    (by decide +kernel)
  revert hkept
  decide +kernel

end SourceUnit

end RamOverlay
