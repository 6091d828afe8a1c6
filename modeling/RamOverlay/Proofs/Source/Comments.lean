import Mathlib.Data.List.Basic
import Mathlib.Data.List.TakeWhile
import RamOverlay.Proofs.Source.Entries
import RamOverlay.Proofs.Text.Records

/-!
# Comments behind a line

The parser looks for a label before it looks for a comment, so a colon in a comment counts. A second
colon hides the label of the line; the only colon on the line makes a label of a comment without
blanks. With any other comment a line says what it says without it.

* **`Text.exists_aroundLine`**: what stands around each line of a text.
* **`Line.isLabel_iff`**: a line is a label by its only colon.
* **`entry_commented_iff`**: when a line with a comment has the entry of the line.
* **`instructions_commented_iff`**: when a comment leaves the entries of a text as they are.
-/

namespace RamOverlay

namespace Text

variable {cs line before behind : List Char}

/-! ## The lines of a text -/

theorem isBlank_of_mem_return : ∀ c ∈ ['\r'], isBlank c = true := by
  intro c hc
  rw [List.mem_singleton.1 hc]
  decide

/-- A carriage return is taken off once at most. -/
theorem dropReturn_cases (cs : List Char) : cs = dropReturn cs ∨ cs = dropReturn cs ++ ['\r'] := by
  induction cs with
  | nil => exact .inl rfl
  | cons c cs ih =>
    cases cs with
    | nil =>
      by_cases hc : c = '\r'
      · refine .inr ?_
        rw [dropReturn, if_pos hc, hc]
        rfl
      · refine .inl ?_
        rw [dropReturn, if_neg hc]
    | cons d cs =>
      -- A character with another one behind it is not the last, so it stays.
      show c :: d :: cs = c :: dropReturn (d :: cs) ∨ c :: d :: cs = c :: dropReturn (d :: cs) ++ _
      rw [List.cons_append]
      exact ih.imp (congrArg (c :: ·)) (congrArg (c :: ·))

/-- What stands around a line of a text: nothing, or the ends of other lines. -/
structure AroundLine (before behind : List Char) : Prop where
  start : before = [] ∨ ∃ front, before = front ++ ['\n']
  finish : behind = [] ∨ ∃ rest, behind = '\n' :: rest ∨ behind = '\r' :: '\n' :: rest

/-- The line between two parts of a text is one of the pieces, perhaps with a carriage return. -/
theorem AroundLine.exists_pieces (h : AroundLine before behind) :
    ∃ (front rest : List (List Char)) (ds : List Char), (∀ c ∈ ds, isBlank c = true) ∧
      ∀ line, '\n' ∉ line →
        pieces '\n' (before ++ line ++ behind) = front ++ (line ++ ds) :: rest := by
  -- Behind the line: nothing, a newline, or a carriage return that stays with the line.
  have hrest : ∃ (rest : List (List Char)) (ds : List Char), (∀ c ∈ ds, isBlank c = true) ∧
      ∀ line, '\n' ∉ line → pieces '\n' (line ++ behind) = (line ++ ds) :: rest := by
    rcases h.finish with rfl | ⟨rest, rfl | rfl⟩
    · refine ⟨[], [], fun _ h => absurd h List.not_mem_nil, fun line hline => ?_⟩
      rw [List.append_nil, pieces_of_not_mem hline]
    · refine ⟨pieces '\n' rest, [], fun _ h => absurd h List.not_mem_nil, fun line hline => ?_⟩
      rw [pieces_append_cons hline, List.append_nil]
    · refine ⟨pieces '\n' rest, ['\r'], isBlank_of_mem_return, fun line hline => ?_⟩
      rw [List.append_cons, pieces_append_cons (by simpa using hline)]
  obtain ⟨rest, ds, hblank, hpieces⟩ := hrest
  -- In front of it: nothing, or a text that ends in a newline.
  rcases h.start with rfl | ⟨front, rfl⟩
  · exact ⟨[], rest, ds, hblank, hpieces⟩
  · refine ⟨pieces '\n' front, rest, ds, hblank, fun line hline => ?_⟩
    rw [List.append_assoc, List.append_assoc, List.singleton_append, pieces_append_sep,
      hpieces line hline]

/-- Another line may come before. -/
theorem AroundLine.cons (h : AroundLine before behind) (part : List Char) :
    AroundLine (part ++ '\n' :: before) behind := by
  refine ⟨.inr ?_, h.finish⟩
  rcases h.start with rfl | ⟨front, rfl⟩
  · exact ⟨part, rfl⟩
  · exact ⟨part ++ '\n' :: front, by simp⟩

/-- A newline ends the line before it, perhaps together with a carriage return. -/
theorem exists_aroundLine_dropReturn (part rest : List Char) :
    ∃ behind, AroundLine [] behind ∧ part ++ '\n' :: rest = dropReturn part ++ behind := by
  rcases dropReturn_cases part with heq | heq
  · exact ⟨'\n' :: rest, ⟨.inl rfl, .inr ⟨rest, .inl rfl⟩⟩, by rw [← heq]⟩
  · refine ⟨'\r' :: '\n' :: rest, ⟨.inl rfl, .inr ⟨rest, .inr rfl⟩⟩, ?_⟩
    conv_lhs => rw [heq]
    rw [List.append_assoc]
    rfl

/-- Each line of a text stands somewhere in it. -/
theorem exists_aroundLine_of_mem_linesOfPieces {parts : List (List Char)}
    (h : line ∈ linesOfPieces parts) : ∃ before behind, AroundLine before behind ∧
      ['\n'].intercalate parts = before ++ line ++ behind := by
  induction parts with
  | nil => cases h
  | cons part parts ih =>
    cases parts with
    | nil =>
      -- the last part is a line unless it is empty, and nothing stands around it
      have heq : line = part := by
        unfold linesOfPieces at h
        split at h
        · cases h
        · exact List.mem_singleton.1 h
      refine ⟨[], [], ⟨.inl rfl, .inl rfl⟩, ?_⟩
      rw [heq, List.intercalate_singleton, List.nil_append, List.append_nil]
    | cons next parts =>
      have hmem : line ∈ dropReturn part :: linesOfPieces (next :: parts) := h
      rw [List.intercalate_cons_cons, List.append_assoc, List.singleton_append]
      rcases List.mem_cons.1 hmem with rfl | hmem
      · obtain ⟨behind, haround, hjoined⟩ :=
          exists_aroundLine_dropReturn part (['\n'].intercalate (next :: parts))
        exact ⟨[], behind, haround, hjoined⟩
      · obtain ⟨before, behind, haround, hjoined⟩ := ih hmem
        refine ⟨part ++ '\n' :: before, behind, haround.cons part, ?_⟩
        rw [hjoined]
        simp

/-- Each line of a text stands between two such parts. -/
theorem exists_aroundLine (h : line ∈ lines cs) :
    ∃ before behind, AroundLine before behind ∧ cs = before ++ line ++ behind := by
  obtain ⟨before, behind, haround, hjoined⟩ := exists_aroundLine_of_mem_linesOfPieces h
  rw [intercalate_pieces] at hjoined
  exact ⟨before, behind, haround, hjoined⟩

end Text

namespace Source

variable {cs ds line comment head tail : List Char}

/-! ## Labels by their colons -/

/-- The parts of a line that defines a label: its only colon, with a text before it that holds
neither spaces nor tabs, blanks at its ends apart. -/
structure LabelParts (cs head tail : List Char) : Prop where
  joined : cs = head ++ ':' :: tail
  notMem_head : ':' ∉ head
  notMem_tail : ':' ∉ tail
  unbroken : ∀ c ∈ Text.trim head, c ≠ ' ' ∧ c ≠ '\t'

/-- What a text says that is no label. -/
def Line.unlabelled (cs : List Char) : Line :=
  match cs with
  | [] | '.' :: _ | '@' :: _ => .ignored
  | _ => .ofStatement cs

theorem pieces_of_labelParts (h : LabelParts cs head tail) : Text.pieces ':' cs = [head, tail] := by
  rw [h.joined, Text.pieces_append_cons h.notMem_head, Text.pieces_of_not_mem h.notMem_tail]

/-- A line with a colon has one way to be cut in two if it has parts of a label. -/
theorem LabelParts.eq_of_append {before after : List Char}
    (h : LabelParts (before ++ ':' :: after) head tail) : head = before ∧ tail = after := by
  have hjoined := h.joined.symm
  rw [List.append_cons_inj_of_notMem h.notMem_head h.notMem_tail] at hjoined
  exact ⟨hjoined.1, hjoined.2.2⟩

/-- A line with the parts of a label is read as one. -/
theorem Line.classify_of_labelParts (h : LabelParts cs head tail) :
    Line.classify cs = .label (Text.trim head) (decide (Text.trim tail ≠ [])) := by
  -- With no blank inside its name the line is not an instruction with a colon in it.
  have hname : ((Text.trim head).any fun c => c == ' ' || c == '\t') = false := by
    rw [List.any_eq_false]
    intro c hc
    obtain ⟨hspace, htab⟩ := h.unbroken c hc
    simp [hspace, htab]
  have hsome : Text.trim cs ≠ [] := by
    rw [h.joined, Text.trim_append_cons (by decide)]
    simp
  unfold Line.classify
  rw [pieces_of_labelParts h]
  dsimp only
  rw [if_neg hsome, hname, if_neg Bool.false_ne_true]

/-- Any other line is read as if labels did not exist. -/
theorem Line.classify_of_not_labelParts (h : ∀ head tail, ¬ LabelParts cs head tail) :
    Line.classify cs = .unlabelled (Text.trim cs) := by
  -- with one colon in it the text before has a blank, since the line is no label
  have hcase : ∀ head tail, Text.pieces ':' cs = [head, tail] →
      ((Text.trim head).any fun c => c == ' ' || c == '\t') = true := by
    intro head tail hpieces
    by_contra hname
    have hfields := Text.fields_pieces ':' cs
    rw [hpieces] at hfields
    obtain ⟨-, hnot, hjoined⟩ := hfields
    apply h head tail
    refine ⟨by simpa using hjoined.symm, hnot head (by simp), hnot tail (by simp), ?_⟩
    simpa [not_or] using hname
  unfold Line.classify Line.unlabelled
  dsimp only
  split
  next hnil => rw [hnil]
  next hsome =>
    split
    next head tail hpieces =>
      rw [if_pos (hcase head tail hpieces)]
      split <;> split <;> simp_all
    next => split <;> split <;> simp_all

theorem Line.unlabelled_ne_label {name : List Char} {followed : Bool} :
    Line.unlabelled cs ≠ .label name followed := by
  unfold Line.unlabelled
  split
  · exact Line.noConfusion
  · exact Line.noConfusion
  · exact Line.noConfusion
  · unfold Line.ofStatement
    split <;> exact Line.noConfusion

/-- A line is a label if and only if it has the parts of one. -/
theorem Line.isLabel_iff : (∃ name followed, Line.classify cs = .label name followed) ↔
    ∃ head tail, LabelParts cs head tail := by
  constructor
  · rintro ⟨name, followed, hlabel⟩
    by_contra hparts
    push Not at hparts
    rw [Line.classify_of_not_labelParts hparts] at hlabel
    exact Line.unlabelled_ne_label hlabel
  · rintro ⟨head, tail, h⟩
    exact ⟨_, _, Line.classify_of_labelParts h⟩

/-! ## Comments behind a line -/

/-- A line with a comment behind it. -/
def commented (line comment : List Char) : List Char := line ++ ' ' :: '@' :: comment

theorem isMnemonicChar_of_isBlank {c : Char} (hc : Text.isBlank c = true) :
    isMnemonicChar c = false := by
  rw [Bool.eq_false_iff]
  intro hchar
  rcases Bool.or_eq_true_iff.1 hchar with hletter | hdot
  · rw [Text.isBlank_of_isAlphanum hletter] at hc
    exact Bool.false_ne_true hc
  · rw [eq_of_beq hdot] at hc
    exact absurd hc (by decide)

/-- No blank ends the operands. -/
theorem ne_mark_of_isBlank {c : Char} (hc : Text.isBlank c = true) :
    (c != ';' && c != '@') = true := by
  rw [Bool.and_eq_true, bne_iff_ne, bne_iff_ne]
  constructor
  · rintro rfl
    exact absurd hc (by decide)
  · rintro rfl
    exact absurd hc (by decide)

/-- Blanks and a comment behind a statement take no part in it. -/
theorem Line.ofStatement_append_comment (hblank : ∀ c ∈ ds, Text.isBlank c = true)
    (hsome : ds ≠ []) (cs rest : List Char) :
    Line.ofStatement (cs ++ (ds ++ '@' :: rest)) = Line.ofStatement cs := by
  obtain ⟨d, ds, rfl⟩ := List.exists_cons_of_ne_nil hsome
  have hd : isMnemonicChar d = false :=
    isMnemonicChar_of_isBlank (hblank d List.mem_cons_self)
  -- the mnemonic ends inside the statement or at the first blank behind it
  have hoperator : (cs ++ (d :: ds ++ '@' :: rest)).takeWhile isMnemonicChar =
      cs.takeWhile isMnemonicChar := by
    rw [List.takeWhile_append, List.cons_append,
      List.takeWhile_cons_of_neg (by simp [hd]), List.append_nil]
    split
    next hall => exact ((List.takeWhile_prefix _).eq_of_length hall).symm
    next => rfl
  have hrest : (cs ++ (d :: ds ++ '@' :: rest)).dropWhile isMnemonicChar =
      cs.dropWhile isMnemonicChar ++ (d :: ds ++ '@' :: rest) := by
    rw [List.dropWhile_append, List.cons_append, List.dropWhile_cons_of_neg (by simp [hd])]
    split
    next hempty => rw [List.isEmpty_iff.1 hempty, List.nil_append]
    next => rfl
  have hoperands : Text.trim ((cs.dropWhile isMnemonicChar ++ (d :: ds ++ '@' :: rest)).takeWhile
      fun c => c != ';' && c != '@') =
      Text.trim ((cs.dropWhile isMnemonicChar).takeWhile fun c => c != ';' && c != '@') := by
    rw [List.takeWhile_append]
    split
    next hall =>
      rw [List.takeWhile_append_of_pos fun c hc => ne_mark_of_isBlank (hblank c hc),
        List.takeWhile_cons_of_neg (by decide), List.append_nil, Text.trim_append_blanks hblank,
        (List.takeWhile_prefix _).eq_of_length hall]
    next => rfl
  unfold Line.ofStatement
  rw [hoperator, hrest]
  dsimp only
  rw [hoperands]

theorem isBlank_append_space (h : ∀ c ∈ ds, Text.isBlank c = true) :
    ∀ c ∈ ds ++ [' '], Text.isBlank c = true := by
  intro c hc
  rcases List.mem_append.1 hc with hc | hc
  · exact h c hc
  · rw [List.mem_singleton.1 hc]
    decide

/-- At the end of a line with a comment only the comment is trimmed. -/
theorem trim_commented (line comment : List Char) :
    Text.trim (commented line comment) =
      Text.trimLeft (line ++ [' ']) ++ '@' :: Text.trimRight comment := by
  have hjoined : commented line comment = (line ++ [' ']) ++ '@' :: comment := by
    simp [commented]
  rw [hjoined, Text.trim_append_cons (by decide)]

theorem trim_commented_of_blank (h : ∀ c ∈ line, Text.isBlank c = true) (comment : List Char) :
    Text.trim (commented line comment) = '@' :: Text.trimRight comment := by
  have hnil : Text.trimLeft (line ++ [' ']) = [] := by
    simpa using Text.trimLeft_blanks_append (isBlank_append_space h) []
  rw [trim_commented, hnil, List.nil_append]

/-- The line defines a label and there is a second colon in the comment. -/
def HidesLabel (line comment : List Char) : Prop :=
  (∃ head tail, LabelParts line head tail) ∧ ':' ∈ comment

/-- The line is blank, and the comment is a label for the parser. -/
def FormsLabel (line comment : List Char) : Prop :=
  (∀ c ∈ line, Text.isBlank c = true) ∧ ∃ head tail, comment = head ++ ':' :: tail ∧
    ':' ∉ head ∧ ':' ∉ tail ∧ ∀ c ∈ Text.trimRight head, c ≠ ' ' ∧ c ≠ '\t'

/-- A comment without a colon leaves the parts of a label as they are. -/
theorem LabelParts.commented (h : LabelParts line head tail) (hcolon : ':' ∉ comment) :
    LabelParts (commented line comment) head (tail ++ ' ' :: '@' :: comment) := by
  refine ⟨?_, h.notMem_head, ?_, h.unbroken⟩
  · rw [Source.commented, h.joined, List.append_assoc, List.cons_append]
  · simp [h.notMem_tail, hcolon]

/-- With one more colon in its comment a label is none. -/
theorem not_labelParts_of_hidesLabel (h : HidesLabel line comment) (head tail : List Char) :
    ¬ LabelParts (commented line comment) head tail := by
  obtain ⟨⟨head', tail', hline⟩, hcolon⟩ := h
  intro hparts
  rw [commented, hline.joined, List.append_assoc, List.cons_append] at hparts
  apply hparts.notMem_tail
  rw [hparts.eq_of_append.2]
  simp [hcolon]

/-- A blank line with a comment is a label if the comment is one. -/
theorem exists_labelParts_iff_formsLabel (hblank : ∀ c ∈ line, Text.isBlank c = true) :
    (∃ head tail, LabelParts (commented line comment) head tail) ↔ FormsLabel line comment := by
  have hcolon : ':' ∉ line ++ [' ', '@'] := by
    intro hmem
    rw [List.append_cons line ' ' ['@'], List.mem_append] at hmem
    rcases hmem with hmem | hmem
    · exact absurd (isBlank_append_space hblank _ hmem) (by decide)
    · exact absurd hmem (by decide)
  -- the name that a colon in the comment gives to the line
  have hname : ∀ front, Text.trim (line ++ [' ', '@'] ++ front) = '@' :: Text.trimRight front := by
    intro front
    rw [← trim_commented_of_blank hblank front, commented, List.append_assoc]
    rfl
  have hjoined : commented line comment = (line ++ [' ', '@']) ++ comment := by simp [commented]
  constructor
  · rintro ⟨head, tail, hparts⟩
    refine ⟨hblank, ?_⟩
    have hmem : ':' ∈ comment := by
      have hmem : ':' ∈ commented line comment := by rw [hparts.joined]; simp
      rw [hjoined, List.mem_append] at hmem
      exact hmem.resolve_left hcolon
    obtain ⟨front, rest, rfl, hfront⟩ := List.eq_append_cons_of_mem hmem
    rw [hjoined, ← List.append_assoc] at hparts
    obtain ⟨rfl, rfl⟩ := hparts.eq_of_append
    refine ⟨front, tail, rfl, hfront, hparts.notMem_tail, fun c hc => hparts.unbroken c ?_⟩
    rw [hname]
    exact List.mem_cons_of_mem _ hc
  · rintro ⟨-, front, rest, rfl, hfront, hrest, hunbroken⟩
    refine ⟨line ++ [' ', '@'] ++ front, rest, ?_, ?_, hrest, ?_⟩
    · rw [hjoined, List.append_assoc _ front]
    · rw [List.mem_append, not_or]
      exact ⟨hcolon, hfront⟩
    · rw [hname]
      exact List.forall_mem_cons.2 ⟨by decide, hunbroken⟩

/-- A comment behind a text that is no label does not make a label of it. -/
theorem not_labelParts_commented (hline : ∀ head tail, ¬ LabelParts line head tail)
    (hsome : ∃ c ∈ line, Text.isBlank c = false) (head tail : List Char) :
    ¬ LabelParts (commented line comment) head tail := by
  intro hparts
  by_cases hmem : ':' ∈ line
  · -- the colon is in the line, so the line has the parts of a label without the comment
    obtain ⟨front, rest, rfl, hfront⟩ := List.eq_append_cons_of_mem hmem
    rw [commented, List.append_assoc, List.cons_append] at hparts
    obtain ⟨rfl, rfl⟩ := hparts.eq_of_append
    apply hline head rest
    exact ⟨rfl, hfront, fun h => hparts.notMem_tail (List.mem_append_left _ h), hparts.unbroken⟩
  · -- the colon is in the comment, and the blank before the comment is inside the name
    have hcolon : ':' ∈ comment := by
      have hall : ':' ∈ commented line comment := by rw [hparts.joined]; simp
      simpa [commented, hmem] using hall
    obtain ⟨front, rest, rfl, hfront⟩ := List.eq_append_cons_of_mem hcolon
    have hjoined : commented line (front ++ ':' :: rest) =
        ((line ++ [' ']) ++ '@' :: front) ++ ':' :: rest := by
      simp [commented]
    rw [hjoined] at hparts
    obtain ⟨rfl, rfl⟩ := hparts.eq_of_append
    have hspace : ' ' ∈ Text.trim ((line ++ [' ']) ++ '@' :: front) := by
      rw [Text.trim_append_cons (by decide), Text.trimLeft_append hsome]
      simp
    exact (hparts.unbroken ' ' hspace).1 rfl

/-- What is no label says the same with a comment behind it. -/
theorem Line.unlabelled_commented (hsome : ∃ c ∈ line, Text.isBlank c = false) :
    Line.unlabelled (Text.trim (commented line comment)) = Line.unlabelled (Text.trim line) := by
  obtain ⟨ds, hds, hblank⟩ := Text.exists_trimRight (Text.trimLeft line)
  -- the line keeps its first character, and the comment is behind a blank
  have htrim : Text.trim (commented line comment) =
      Text.trim line ++ (ds ++ [' '] ++ '@' :: Text.trimRight comment) := by
    rw [trim_commented, Text.trimLeft_append hsome, hds]
    simp [Text.trim]
  have hstatement := Line.ofStatement_append_comment (isBlank_append_space hblank) (by simp)
    (Text.trim line) (Text.trimRight comment)
  rw [htrim]
  generalize hstart : Text.trim line = start at hstatement ⊢
  cases start with
  | nil =>
    obtain ⟨c, hmem, hc⟩ := hsome
    rw [Text.trim_eq_nil_iff.1 hstart c hmem] at hc
    exact absurd hc (by decide)
  | cons c start =>
    unfold Line.unlabelled
    simp only [List.cons_append] at hstatement ⊢
    split <;> simp_all

end Source

/-! ## The entry of a line with a comment -/

namespace SourceUnit

open Source

variable {cs ds line comment before behind : List Char} {lines lines' : List (List Char)}
  {number address : Nat} {p : Prop}

/-- The entry of a label line has the label and nothing else. -/
theorem entry_of_labelParts {head tail : List Char} (h : LabelParts cs head tail)
    (number address : Nat) : entry? number address cs =
      some { address, line := number, label? := some (String.ofList (Text.trim head)) } := by
  unfold entry?
  rw [Line.classify_of_labelParts h]

/-- Without the parts of a label, a line has no label and its entry follows from what it says. -/
theorem label?_of_not_labelParts {insn : Instruction} (h : ∀ head tail, ¬ LabelParts cs head tail)
    (hentry : entry? number address cs = some insn) : insn.label? = none := by
  unfold entry? at hentry
  rw [Line.classify_of_not_labelParts h] at hentry
  split at hentry
  next name followed hlabel => exact absurd hlabel Line.unlabelled_ne_label
  next => cases hentry; rfl
  next => cases hentry
  next => cases hentry

/-- A label keeps its entry unless the comment adds a colon. -/
theorem entry_commented_of_labelParts {head tail : List Char} (hparts : LabelParts line head tail)
    (number address : Nat) : entry? number address (commented line comment) =
      entry? number address line ↔ ':' ∉ comment := by
  by_cases hcolon : ':' ∈ comment
  · -- the label is lost, so the entry differs
    refine iff_of_false (fun hsame => ?_) (not_not_intro hcolon)
    rw [entry_of_labelParts hparts] at hsame
    have hnone := label?_of_not_labelParts
      (not_labelParts_of_hidesLabel ⟨⟨head, tail, hparts⟩, hcolon⟩) hsame
    exact Option.some_ne_none _ hnone
  · refine iff_of_true ?_ hcolon
    rw [entry_of_labelParts hparts, entry_of_labelParts (hparts.commented hcolon)]

/-- A blank line has no entry, and gets one from a comment that is read as a label. -/
theorem entry_commented_of_blank (hblank : ∀ c ∈ line, Text.isBlank c = true)
    (hline : ∀ head tail, ¬ LabelParts line head tail) (number address : Nat) :
    entry? number address (commented line comment) = entry? number address line ↔
      ¬ FormsLabel line comment := by
  -- The blank line itself is ignored, so the question is whether the comment is, too.
  have hnone : entry? number address line = none := by
    refine entry_of_ignored ?_ number address
    rw [Line.classify_of_not_labelParts hline, Text.trim_eq_nil_iff.2 hblank]
    rfl
  rw [hnone, ← exists_labelParts_iff_formsLabel hblank]
  by_cases hforms : ∃ head tail, LabelParts (commented line comment) head tail
  · refine iff_of_false ?_ (not_not_intro hforms)
    obtain ⟨head, tail, hparts⟩ := hforms
    rw [entry_of_labelParts hparts]
    exact Option.some_ne_none _
  · refine iff_of_true ?_ hforms
    push Not at hforms
    refine entry_of_ignored ?_ number address
    rw [Line.classify_of_not_labelParts hforms, trim_commented_of_blank hblank]
    rfl

/-- A line that is neither blank nor a label has the same entry with a comment, whatever this says.
-/
theorem entry_commented_of_unlabelled (hsome : ∃ c ∈ line, Text.isBlank c = false)
    (hline : ∀ head tail, ¬ LabelParts line head tail) (number address : Nat) :
    entry? number address (commented line comment) = entry? number address line := by
  unfold entry?
  rw [Line.classify_of_not_labelParts hline,
    Line.classify_of_not_labelParts (not_labelParts_commented hline hsome),
    Line.unlabelled_commented hsome]

/-- A comment changes the entry of a line exactly if it hides a label or forms one. -/
theorem entry_commented_iff (line comment : List Char) (number address : Nat) :
    entry? number address (commented line comment) = entry? number address line ↔
      ¬ (HidesLabel line comment ∨ FormsLabel line comment) := by
  by_cases hline : ∃ head tail, LabelParts line head tail
  · -- a label has a colon, so the line is not blank and the comment cannot form one
    have hforms : ¬ FormsLabel line comment := by
      obtain ⟨head, tail, hparts⟩ := hline
      rintro ⟨hblank, -⟩
      rw [hparts.joined] at hblank
      exact absurd (hblank ':' (by simp)) (by decide)
    have hhides : HidesLabel line comment ↔ ':' ∈ comment := and_iff_right hline
    rw [or_iff_left hforms, hhides]
    obtain ⟨head, tail, hparts⟩ := hline
    exact entry_commented_of_labelParts hparts number address
  · have hhides : ¬ HidesLabel line comment := fun h => hline h.1
    rw [or_iff_right hhides]
    push Not at hline
    by_cases hblank : ∀ c ∈ line, Text.isBlank c = true
    · exact entry_commented_of_blank hblank hline number address
    · have hsome : ∃ c ∈ line, Text.isBlank c = false := by simpa using hblank
      exact iff_of_true (entry_commented_of_unlabelled hsome hline number address)
        fun hforms => hblank hforms.1

/-- Blanks at the end of a line make no difference to its entry. -/
theorem entry_append_blanks (hblank : ∀ c ∈ ds, Text.isBlank c = true) (cs : List Char)
    (number address : Nat) : entry? number address (cs ++ ds) = entry? number address cs := by
  have hcolon : ':' ∉ ds := fun hmem => absurd (hblank ':' hmem) (by decide)
  by_cases hparts : ∃ head tail, LabelParts cs head tail
  · obtain ⟨head, tail, hparts⟩ := hparts
    have happended : LabelParts (cs ++ ds) head (tail ++ ds) := by
      refine ⟨?_, hparts.notMem_head, ?_, hparts.unbroken⟩
      · rw [hparts.joined, List.append_assoc, List.cons_append]
      · rw [List.mem_append, not_or]
        exact ⟨hparts.notMem_tail, hcolon⟩
    rw [entry_of_labelParts hparts, entry_of_labelParts happended]
  · push Not at hparts
    -- blanks add no colon, so the parts would be those of the line itself
    have happended : ∀ head tail, ¬ LabelParts (cs ++ ds) head tail := by
      intro head tail h
      have hmem : ':' ∈ cs := by
        have hall : ':' ∈ cs ++ ds := by rw [h.joined]; simp
        exact (List.mem_append.1 hall).resolve_right hcolon
      obtain ⟨front, rest, rfl, hfront⟩ := List.eq_append_cons_of_mem hmem
      rw [List.append_assoc, List.cons_append] at h
      obtain ⟨rfl, rfl⟩ := h.eq_of_append
      apply hparts head rest
      exact ⟨rfl, hfront, fun hrest => h.notMem_tail (List.mem_append_left _ hrest), h.unbroken⟩
    unfold entry?
    rw [Line.classify_of_not_labelParts hparts, Line.classify_of_not_labelParts happended,
      Text.trim_append_blanks hblank]

/-! ## The entries of a text with a comment -/

/-- A line has one entry or none. -/
theorem entriesFrom_cons (number address : Nat) (cs : List Char) (lines : List (List Char)) :
    entriesFrom number address (cs :: lines) = ( entry? number address cs).toList ++
      entriesFrom (number + 1) (address + ( entry? number address cs).toList.length) lines := by
  rw [entriesFrom]
  cases entry? number address cs <;> rfl

/-- The entries of the second part of a text are numbered behind those of the first. -/
theorem entriesFrom_append (number address : Nat) (lines lines' : List (List Char)) :
    entriesFrom number address (lines ++ lines') = entriesFrom number address lines ++
      entriesFrom (number + lines.length)
        (address + (entriesFrom number address lines).length) lines' := by
  induction lines generalizing number address with
  | nil => rfl
  | cons cs lines ih =>
    rw [List.cons_append, entriesFrom_cons, ih, entriesFrom_cons, List.append_assoc]
    simp only [List.length_cons, List.length_append]
    congr 3 <;> omega

/-- The entry with the number of a line is the entry of that line. -/
theorem find?_entriesFrom_cons (number address : Nat) (cs : List Char)
    (lines : List (List Char)) :
    (entriesFrom number address (cs :: lines)).find? (·.line == number) =
      entry? number address cs := by
  rw [entriesFrom_cons]
  cases hentry : entry? number address cs with
  | some insn =>
    have hline := line_of_entry_eq_some hentry
    simp [hline]
  | none =>
    -- the entries behind are on later lines
    rw [Option.toList_none, List.nil_append, List.find?_eq_none]
    intro insn hinsn
    obtain ⟨i, -, -, -, hline, -⟩ := exists_entry_of_mem_entriesFrom hinsn
    rw [beq_iff_eq]
    omega

/-- Entries stay the same after a change of one line if and only if its own entry does. -/
theorem entriesFrom_line_iff {cs' : List Char} (h : ∀ number address,
      entry? number address cs' = entry? number address cs ↔ ¬ p) :
    entriesFrom number address (lines ++ cs' :: lines') =
      entriesFrom number address (lines ++ cs :: lines') ↔ ¬ p := by
  rw [entriesFrom_append, entriesFrom_append, List.append_cancel_left_eq]
  generalize number + lines.length = number
  generalize address + (entriesFrom _ address lines).length = address
  constructor
  · -- The entry of a line is found again in all the entries by the number of the line.
    intro hsame
    have hfind := congrArg (List.find? (·.line == number)) hsame
    rw [find?_entriesFrom_cons, find?_entriesFrom_cons] at hfind
    exact (h number address).1 hfind
  · intro hp
    rw [entriesFrom_cons, entriesFrom_cons, (h number address).2 hp]

theorem entry_dropReturn (cs : List Char) (number address : Nat) :
    entry? number address (Text.dropReturn cs) = entry? number address cs := by
  rcases Text.dropReturn_cases cs with heq | heq
  · rw [← heq]
  · have hsame := entry_append_blanks Text.isBlank_of_mem_return (Text.dropReturn cs) number address
    rw [← heq] at hsame
    exact hsame.symm

/-- The pieces between newlines have the entries of the lines. -/
theorem entriesFrom_linesOfPieces (number address : Nat) (pieces : List (List Char)) :
    entriesFrom number address (Text.linesOfPieces pieces) = entriesFrom number address pieces := by
  induction pieces generalizing number address with
  | nil => rfl
  | cons piece rest ih =>
    cases rest with
    | nil =>
      unfold Text.linesOfPieces
      -- An empty last piece is no line, and has no entry either.
      split
      next hnil => rw [hnil]; rfl
      next => rfl
    | cons next rest =>
      show entriesFrom number address
        (Text.dropReturn piece :: Text.linesOfPieces (next :: rest)) = _
      rw [entriesFrom_cons, entriesFrom_cons, entry_dropReturn, ih]

/-- A comment behind a line of a unit makes no difference to the instructions, unless it hides the
label of the line or is read as one itself. -/
theorem instructions_commented_iff (name : String) (haround : Text.AroundLine before behind)
    (hline : '\n' ∉ line) (hcomment : '\n' ∉ comment) :
    (parse name (String.ofList (before ++ commented line comment ++ behind))).value.instructions =
        (parse name (String.ofList (before ++ line ++ behind))).value.instructions ↔
      ¬ (HidesLabel line comment ∨ FormsLabel line comment) := by
  obtain ⟨front, rest, ds, hblank, hpieces⟩ := haround.exists_pieces
  have hcommented : '\n' ∉ commented line comment := by simp [commented, hline, hcomment]
  unfold parse
  simp only [String.toList_ofList, Text.lines, entriesFrom_linesOfPieces]
  rw [hpieces line hline, hpieces _ hcommented]
  apply entriesFrom_line_iff
  intro number address
  rw [entry_append_blanks hblank, entry_append_blanks hblank]
  exact entry_commented_iff line comment number address

/-! ## A comment behind the label of a loop -/

/-- What stands before the label of the loop in a function that counts down. -/
def loopStart : List Char := "\t.type\tf, %function\nf:\n".toList

/-- The loop behind its label. -/
def loopBody : List Char := "\n\tsubs\tr0, r0, #1\n\tbne\t.L2\n\tbx\tlr\n".toList

theorem aroundLine_loop : Text.AroundLine loopStart loopBody :=
  ⟨.inr ⟨"\t.type\tf, %function\nf:".toList, by decide⟩,
    .inr ⟨"\tsubs\tr0, r0, #1\n\tbne\t.L2\n\tbx\tlr\n".toList, .inl (by decide)⟩⟩

/-- A comment without a colon leaves the label of the loop where it is. -/
theorem instructions_commented_loop : Text.AroundLine loopStart loopBody ∧ '\n' ∉ ".L2:".toList ∧
    '\n' ∉ " the loop".toList ∧
    (parse "t.s" (String.ofList
        (loopStart ++ commented ".L2:".toList " the loop".toList ++ loopBody))).value.instructions =
      (parse "t.s" (String.ofList
        (loopStart ++ ".L2:".toList ++ loopBody))).value.instructions := by
  have hline : '\n' ∉ ".L2:".toList := by decide
  have hcomment : '\n' ∉ " the loop".toList := by decide
  refine ⟨aroundLine_loop, hline, hcomment, ?_⟩
  apply (instructions_commented_iff "t.s" aroundLine_loop hline hcomment).2
  rintro (⟨-, hcolon⟩ | ⟨hblank, -⟩)
  · exact absurd hcolon (by decide)
  · exact absurd (hblank '.' (by decide)) (by decide)

/-- A comment with a colon takes the label of the loop away, and the branch back has no target. -/
theorem label_lost_commentedLoop : Text.AroundLine loopStart loopBody ∧ '@' ∉ ".L2:".toList ∧
    ';' ∉ ".L2:".toList ∧ '\n' ∉ ".L2:".toList ∧ '\n' ∉ " loop: i < n".toList ∧
    (parse "t.s" (String.ofList (loopStart ++ ".L2:".toList ++ loopBody))).value.instructions[1]? =
      some { address := 1, line := 2, label? := some ".L2" } ∧
    (parse "t.s" (String.ofList (loopStart ++ commented ".L2:".toList " loop: i < n".toList ++
        loopBody))).value.instructions[1]? =
      some { address := 1, line := 3, operator := "subs", operands := "r0, r0, #1" } :=
  ⟨aroundLine_loop, by decide, by decide, by decide, by decide, by decide +kernel,
    by decide +kernel⟩

end SourceUnit

end RamOverlay
