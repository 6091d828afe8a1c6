import RamOverlay.Proofs.Exit.Transfer

/-!
# Passages of an edited text

An edited text is made of passages, each a line of the source or a text that an edit put in. Each
passage knows the line of the source to which it belongs, and how it came there.

* **`EditList.apply_eq_passages`**: the edited text is made of its passages.
* **`EditList.passages_eq`**: the passages of one line, between those of the lines before and after.
* **`EditList.filter_source`**: the lines of the source that are kept, each once and in order.
-/

namespace RamOverlay

/-- How a passage came into an edited text: as a line of the source, or as a text put before a line,
in its place or behind it. -/
inductive Origin where
  | source
  | before
  | inPlace
  | after
  deriving DecidableEq, Repr

/-- A piece of the output, and where it comes from. -/
structure Passage where
  origin : Origin
  /-- The line of the source to which the passage belongs. -/
  line : Nat
  text : String
  deriving DecidableEq, Repr

/-- A text that was put in is cut at its newlines; a line of the source is one line. -/
def Passage.lines (passage : Passage) : List String :=
  if passage.origin = .source then [passage.text] else Text.piecesOf '\n' passage.text

/-! ## The passages of a line -/

namespace LineEdits

/-- The line, or what stands in its place. -/
def middle (change : LineEdits) (line : Nat) (text : String) : List Passage :=
  if change.inPlace.isEmpty then (if change.removed then [] else [⟨.source, line, text⟩])
  else change.inPlace.map fun text => ⟨.inPlace, line, text⟩

/-- What becomes of a line, in pieces. -/
def passages (change : LineEdits) (line : Nat) (text : String) : List Passage :=
  change.before.map (fun text => ⟨.before, line, text⟩) ++
    (change.middle line text ++ change.after.map fun text => ⟨.after, line, text⟩)

variable {change : LineEdits} {line : Nat} {text : String} {passage : Passage}

theorem flatMap_lines (origin : Origin) (horigin : origin ≠ .source) (line : Nat)
    (texts : List String) :
    (texts.map fun text => (⟨origin, line, text⟩ : Passage)).flatMap Passage.lines =
      cutLines texts := by
  rw [cutLines, List.flatMap_map]
  exact List.flatMap_congr fun text _ => if_neg horigin

/-- The output for a line is its pieces one after the other. -/
theorem apply_eq_passages (change : LineEdits) (line : Nat) (text : String) :
    change.apply text = (change.passages line text).flatMap Passage.lines := by
  rw [passages, List.flatMap_append, List.flatMap_append, flatMap_lines .before (by decide),
    flatMap_lines .after (by decide), apply, List.append_assoc]
  congr 2
  unfold middle
  split
  · split <;> rfl
  · exact (flatMap_lines .inPlace (by decide) line _).symm

/-- Where a line was is the line itself, or the texts in its place. -/
theorem cases_of_mem_middle (h : passage ∈ change.middle line text) :
    passage = ⟨.source, line, text⟩ ∨
      ∃ text ∈ change.inPlace, passage = ⟨.inPlace, line, text⟩ := by
  unfold middle at h
  split at h
  · split at h
    · cases h
    · exact .inl (List.mem_singleton.1 h)
  · obtain ⟨text, htext, rfl⟩ := List.mem_map.1 h
    exact .inr ⟨text, htext, rfl⟩

theorem line_of_mem_middle (h : passage ∈ change.middle line text) : passage.line = line := by
  rcases cases_of_mem_middle h with rfl | ⟨_, -, rfl⟩ <;> rfl

theorem mem_middle_of_mem_inPlace {replacement : String} (h : replacement ∈ change.inPlace) :
    ⟨.inPlace, line, replacement⟩ ∈ change.middle line text := by
  unfold middle
  rw [if_neg fun hempty => List.ne_nil_of_mem h (List.isEmpty_iff.1 hempty)]
  exact List.mem_map_of_mem h

theorem mem_passages : passage ∈ change.passages line text ↔
    (∃ text ∈ change.before, passage = ⟨.before, line, text⟩) ∨
      passage ∈ change.middle line text ∨
        ∃ text ∈ change.after, passage = ⟨.after, line, text⟩ := by
  simp only [passages, List.mem_append, List.mem_map, eq_comm]

theorem line_of_mem_passages (h : passage ∈ change.passages line text) : passage.line = line := by
  rcases mem_passages.1 h with ⟨_, _, rfl⟩ | h | ⟨_, _, rfl⟩
  · rfl
  · exact line_of_mem_middle h
  · rfl

/-- A line comes through once, unless it is taken out or replaced. -/
theorem filter_source_passages : (change.passages line text).filter (·.origin == .source) =
    if change.removed || !change.inPlace.isEmpty then [] else [⟨.source, line, text⟩] := by
  -- nothing that is put around the line is the line itself
  have hnone : ∀ (origin : Origin) (texts : List String), origin ≠ .source →
      (texts.map fun text => (⟨origin, line, text⟩ : Passage)).filter (·.origin == .source) =
        [] := by
    intro origin texts horigin
    refine List.filter_eq_nil_iff.2 fun passage hpassage => ?_
    obtain ⟨_, _, rfl⟩ := List.mem_map.1 hpassage
    simpa using horigin
  rw [passages, List.filter_append, List.filter_append, hnone .before _ (by decide),
    hnone .after _ (by decide), List.nil_append, List.append_nil]
  unfold middle
  split
  next hempty =>
    rw [hempty]
    cases change.removed <;> rfl
  next hsome =>
    rw [hnone .inPlace _ (by decide), if_pos (by simp [hsome])]

end LineEdits

/-! ## The passages of a text -/

namespace EditList

variable {edits : EditList} {line : Nat} {source : List String} {text : String} {passage : Passage}

/-- The pieces of the lines from a number on. -/
def passagesFrom (edits : EditList) (line : Nat) : List String → List Passage
  | [] => []
  | text :: rest => (edits.atLine line).passages line text ++ edits.passagesFrom (line + 1) rest

/-- The passages of the edited text, the data section apart. -/
def passages (edits : EditList) (source : List String) : List Passage := edits.passagesFrom 0 source

/-- Whether a line of the source is removed, or something else stands in its place. -/
def drops (edits : EditList) (line : Nat) : Bool :=
  (edits.atLine line).removed || !(edits.atLine line).inPlace.isEmpty

theorem applyFrom_eq_passages (edits : EditList) (line : Nat) (source : List String) :
    edits.applyFrom line source = (edits.passagesFrom line source).flatMap Passage.lines := by
  induction source generalizing line with
  | nil => rfl
  | cons text source ih =>
    rw [applyFrom, passagesFrom, List.flatMap_append, ← ih, LineEdits.apply_eq_passages]

/-- The output is its pieces one after the other, and then the data section. -/
theorem apply_eq_passages (edits : EditList) (source : List String) :
    edits.apply source =
      (edits.passages source).flatMap Passage.lines ++ ".data" :: cutLines edits.dataTexts := by
  rw [apply, applyFrom_eq_passages]
  rfl

/-- The pieces may be taken apart wherever the lines are. -/
theorem passagesFrom_append (texts rest : List String) :
    edits.passagesFrom line (texts ++ rest) =
      edits.passagesFrom line texts ++ edits.passagesFrom (line + texts.length) rest := by
  induction texts generalizing line with
  | nil => rfl
  | cons text texts ih =>
    rw [List.cons_append, passagesFrom, passagesFrom, ih, List.append_assoc, List.length_cons,
      Nat.add_right_comm, Nat.add_assoc]

/-- The output seen from one of its lines: what is before it, its own pieces, and the rest. -/
theorem passages_eq (h : source[line]? = some text) :
    edits.passages source = edits.passages (source.take line) ++
      ((edits.atLine line).passages line text ++
        edits.passagesFrom (line + 1) (source.drop (line + 1))) := by
  obtain ⟨hlt, rfl⟩ := List.getElem?_eq_some_iff.1 h
  -- cut the source at the line; only the line to be cut is rewritten, not the pieces themselves
  have hsource : source = source.take line ++ source[line] :: source.drop (line + 1) := by
    rw [← List.drop_eq_getElem_cons hlt, List.take_append_drop]
  unfold passages
  conv_lhs => rw [hsource]
  rw [passagesFrom_append, List.length_take_of_le hlt.le, Nat.zero_add, passagesFrom]

/-- Each piece belongs to a line of the source. -/
theorem mem_passagesFrom : passage ∈ edits.passagesFrom line source ↔
    ∃ i text, source[i]? = some text ∧
      passage ∈ (edits.atLine (line + i)).passages (line + i) text := by
  induction source generalizing line with
  | nil => simp [passagesFrom]
  | cons first source ih =>
    rw [passagesFrom, List.mem_append, ih]
    constructor
    · rintro (h | ⟨i, text, hi, h⟩)
      · exact ⟨0, first, rfl, h⟩
      · exact ⟨i + 1, text, hi, by rwa [Nat.add_assoc, Nat.add_comm 1] at h⟩
    · rintro ⟨i, text, hi, h⟩
      -- the piece is of the first line, or of one further on
      cases i with
      | zero =>
        obtain rfl : first = text := by simpa using hi
        exact .inl h
      | succ i => exact .inr ⟨i, text, hi, by rwa [Nat.add_assoc, Nat.add_comm 1]⟩

/-- A passage belongs to a line of the source, and is one of the passages of that line. -/
theorem mem_passages : passage ∈ edits.passages source ↔
    ∃ text, source[passage.line]? = some text ∧
      passage ∈ (edits.atLine passage.line).passages passage.line text := by
  rw [passages, mem_passagesFrom]
  simp only [Nat.zero_add]
  constructor
  · rintro ⟨i, text, hi, h⟩
    obtain rfl := LineEdits.line_of_mem_passages h
    exact ⟨text, hi, h⟩
  · rintro ⟨text, hi, h⟩
    exact ⟨_, text, hi, h⟩

/-- The lines of the source that are not dropped, each once and in order. -/
theorem filter_source (edits : EditList) (source : List String) :
    (edits.passages source).filter (·.origin == .source) =
      (source.zipIdx.filter fun entry => !edits.drops entry.2).map fun entry =>
        ⟨.source, entry.2, entry.1⟩ := by
  unfold passages
  generalize 0 = line
  induction source generalizing line with
  | nil => rfl
  | cons text source ih =>
    rw [passagesFrom, List.filter_append, ih, LineEdits.filter_source_passages, List.zipIdx_cons,
      List.filter_cons]
    show (if edits.drops line = true then _ else _) ++ _ = _
    cases edits.drops line <;> rfl

/-- The lines that come through are those that are not dropped. -/
theorem mem_source_iff : ⟨.source, line, text⟩ ∈ edits.passages source ↔
    source[line]? = some text ∧ edits.drops line = false := by
  -- the pieces that are lines of the source are known already
  have hmem : ⟨.source, line, text⟩ ∈ edits.passages source ↔
      ⟨.source, line, text⟩ ∈ (edits.passages source).filter (·.origin == .source) := by
    rw [List.mem_filter]
    exact (and_iff_left (by rfl)).symm
  rw [hmem, filter_source, List.mem_map]
  constructor
  · rintro ⟨⟨text', line'⟩, hentry, heq⟩
    obtain ⟨hget, hkept⟩ := List.mem_filter.1 hentry
    cases heq
    exact ⟨List.mk_mem_zipIdx_iff_getElem?.1 hget, by simpa using hkept⟩
  · rintro ⟨hget, hkept⟩
    refine ⟨(text, line), List.mem_filter.2 ⟨List.mk_mem_zipIdx_iff_getElem?.2 hget, ?_⟩, rfl⟩
    rw [hkept]
    rfl

end EditList

end RamOverlay
