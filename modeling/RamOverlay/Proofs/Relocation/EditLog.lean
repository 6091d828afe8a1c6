import RamOverlay.Proofs.Relocation.Changes

/-!
# The log of an edited text

Edits are kept in a table by line, and a second list of edits is merged into the first one line by
line. None of this can be seen in the edited text: what counts is the log, the single edits in the
order in which they were recorded.

* **`Recording`**: the ways to record edits, one by one and by appending lists of their own.
* **`Recording.edits_eq_recordAll`**: all ways to record a log make the same list. Merging a list
  to which an edit was added is merging the list and then adding the edit (`append_record`).
* **`EditList.atLine_recordAll`**: the change to a line, read off the log.
* **`Recording.apply_edits`**: the edited text, read off the log.
-/

namespace RamOverlay

/-! ## Logs -/

/-- A single edit, as it is asked for. -/
inductive Edit where
  | before (line : Nat) (text : String)
  | replace (line : Nat) (text : String)
  | remove (line : Nat)
  | after (line : Nat) (text : String)
  | data (text : String)
  deriving DecidableEq, Repr

/-- What an edit is about: the texts at one place of a line, its removal, or the data section. -/
inductive EditPlace where
  | before (line : Nat)
  | inPlace (line : Nat)
  | removal (line : Nat)
  | after (line : Nat)
  | data
  deriving DecidableEq, Repr

namespace Edit

/-- Where an edit is kept. -/
def place : Edit → EditPlace
  | before line _ => .before line
  | replace line _ => .inPlace line
  | remove line => .removal line
  | after line _ => .after line
  | data _ => .data

/-- The text that the edit puts in; a removal has none. -/
def text? : Edit → Option String
  | before _ text | replace _ text | after _ text | data text => some text
  | remove _ => none

end Edit

/-- The texts at a place, in the order in which they were recorded. -/
def textsAt (log : List Edit) (place : EditPlace) : List String :=
  (log.filter (·.place = place)).filterMap Edit.text?

/-- What stands in the place of a line. -/
def editedLine (log : List Edit) (line : Nat) (text : String) : List String :=
  let replacements := textsAt log (.inPlace line)
  let middle :=
    if replacements ≠ [] then replacements.flatMap (Text.piecesOf '\n')
    else if .remove line ∈ log then []
    else [text]
  (textsAt log (.before line)).flatMap (Text.piecesOf '\n') ++ middle
    ++ (textsAt log (.after line)).flatMap (Text.piecesOf '\n')

/-- The text after the edits of a log. -/
def edited (log : List Edit) (source : List String) : List String :=
  source.zipIdx.flatMap (fun (text, line) => editedLine log line text)
    ++ ".data" :: (textsAt log .data).flatMap (Text.piecesOf '\n')

theorem textsAt_append (log later : List Edit) (place : EditPlace) :
    textsAt (log ++ later) place = textsAt log place ++ textsAt later place := by
  simp only [textsAt, List.filter_append, List.filterMap_append]

/-! ## Recordings -/

/-- Makes an edit. -/
def EditList.record (edits : EditList) : Edit → EditList
  | .before line text => edits.before line text
  | .replace line text => edits.replace line text
  | .remove line => edits.remove line
  | .after line text => edits.after line text
  | .data text => edits.addData text

/-- The edits of a log, recorded one after the other. -/
def EditList.recordAll (log : List Edit) : EditList := log.foldl EditList.record {}

/-- A way to record edits: into one list, or into two lists of which one is appended to the
other. -/
inductive Recording where
  | empty
  | edit (earlier : Recording) (last : Edit)
  | append (earlier later : Recording)
  deriving DecidableEq, Repr

namespace Recording

/-- All edits of a recording in their order. -/
def log : Recording → List Edit
  | empty => []
  | edit earlier last => earlier.log ++ [last]
  | append earlier later => earlier.log ++ later.log

/-- The list that a recording gives. -/
def edits : Recording → EditList
  | empty => {}
  | edit earlier last => earlier.edits.record last
  | append earlier later => earlier.edits ++ later.edits

end Recording

/-! ## Merged tables -/

namespace Keyed

variable {κ α : Type} [DecidableEq κ] {key other : κ} (f g : Option α → α)

/-- Two changes of one key are a single one. -/
theorem adjust_adjust (table : Keyed κ α) (key : κ) :
    (table.adjust key f).adjust key g = table.adjust key fun old => g (some (f old)) := by
  induction table with
  | nil => simp [adjust]
  | cons entry rest ih =>
    obtain ⟨k, a⟩ := entry
    by_cases hk : k = key <;> simp [adjust, hk, ih]

/-- Two keys can be set in either order if one of them is there; else the order of the keys would
differ. -/
theorem adjust_comm (hne : key ≠ other) {table : Keyed κ α} (hkey : key ∈ table.keys) :
    (table.adjust key f).adjust other g = (table.adjust other g).adjust key f := by
  induction table with
  | nil => cases hkey
  -- two new keys would be added in the order of the changes
  | cons entry rest ih =>
    obtain ⟨k, a⟩ := entry
    by_cases hk : k = key
    · subst k
      simp [adjust, hne]
    · have hrest : key ∈ Keyed.keys rest := by
        rcases List.mem_cons.1 hkey with rfl | hrest
        · exact absurd rfl hk
        · exact hrest
      -- only a new key is added, and `key` is not new
      by_cases hother : k = other
      · simp [adjust, hother, hne.symm]
      · simp [adjust, hk, hother, ih hrest]

theorem mem_keys_adjust {table : Keyed κ α} : other ∈ (table.adjust key f).keys ↔
    other = key ∨ other ∈ table.keys := by
  rw [keys_adjust]
  split <;> grind

end Keyed

namespace EditList

variable {edits others : EditList} {line : Nat} {change : LineEdits}

/-- An entry of a table, behind what another table holds for its line. -/
def mergeEntry (lines : Keyed Nat LineEdits) (entry : Nat × LineEdits) :
    Keyed Nat LineEdits :=
  lines.adjust entry.1 fun old => (old.getD {}).append entry.2

/-- Entries for other lines can be merged before or after a change to a line that is there. -/
theorem foldl_mergeEntry_adjust {entries lines : Keyed Nat LineEdits} (hline : line ∈ lines.keys)
    (hnew : line ∉ entries.keys) (f : Option LineEdits → LineEdits) :
    (entries.foldl mergeEntry lines).adjust line f =
      entries.foldl mergeEntry (lines.adjust line f) := by
  induction entries generalizing lines with
  | nil => rfl
  | cons entry entries ih =>
    obtain ⟨hne, hnew⟩ := not_or.1 (fun h => hnew (List.mem_cons.2 h))
    rw [List.foldl_cons, List.foldl_cons, ih _ hnew]
    · congr 1
      exact (Keyed.adjust_comm _ _ hne hline).symm
    · exact (Keyed.mem_keys_adjust _).2 (.inr hline)

/-- Merging a table in which a line was changed is merging the table and then changing the line. -/
theorem foldl_mergeEntry_addAt {entries : Keyed Nat LineEdits} (h : entries.keys.Nodup)
    (lines : Keyed Nat LineEdits) (line : Nat) (change : LineEdits) :
    (entries.adjust line fun old => (old.getD {}).append change).foldl mergeEntry lines =
      (entries.foldl mergeEntry lines).adjust line fun old => (old.getD {}).append change := by
  induction entries generalizing lines with
  | nil =>
    show lines.adjust line (fun old => (old.getD {}).append (LineEdits.append {} change)) = _
    rw [LineEdits.empty_append]
    rfl
  | cons entry entries ih =>
    obtain ⟨key, first⟩ := entry
    obtain ⟨hkey, hentries⟩ := List.nodup_cons.1 h
    rw [Keyed.adjust]
    by_cases heq : key = line
    · -- the changed entry is the first one, and no later entry is for its line
      subst key
      rw [if_pos rfl, List.foldl_cons, List.foldl_cons, foldl_mergeEntry_adjust _ hkey]
      · congr 1
        unfold mergeEntry
        rw [Keyed.adjust_adjust]
        congr 1
        funext old
        exact (LineEdits.append_assoc _ _ _).symm
      · exact (Keyed.mem_keys_adjust _).2 (.inl rfl)
    · rw [if_neg heq, List.foldl_cons, List.foldl_cons]
      exact ih hentries _

/-! ## One list for each log -/

/-- An edit goes to a line or to the data section. -/
theorem record_cases (edit : Edit) :
    (∃ line change, ∀ edits : EditList, edits.record edit = edits.addAt line change) ∨
      ∃ text, ∀ edits : EditList, edits.record edit = edits.addData text := by
  cases edit with
  | before line text => exact .inl ⟨line, _, fun _ => rfl⟩
  | replace line text => exact .inl ⟨line, _, fun _ => rfl⟩
  | remove line => exact .inl ⟨line, _, fun _ => rfl⟩
  | after line text => exact .inl ⟨line, _, fun _ => rfl⟩
  | data text => exact .inr ⟨text, fun _ => rfl⟩

theorem OneEach.record (h : edits.OneEach) (edit : Edit) : (edits.record edit).OneEach := by
  rcases record_cases edit with ⟨line, change, hrecord⟩ | ⟨text, hrecord⟩
  · rw [hrecord]
    exact h.addAt line change
  · rw [hrecord]
    exact h

/-- An edit may be made before or after its list is appended. -/
theorem append_record (edits : EditList) (h : others.OneEach) (edit : Edit) :
    edits ++ others.record edit = (edits ++ others).record edit := by
  rcases record_cases edit with ⟨line, change, hrecord⟩ | ⟨text, hrecord⟩
  · rw [hrecord, hrecord]
    exact congrArg (EditList.mk · _) (foldl_mergeEntry_addAt h edits.lines line change)
  · rw [hrecord, hrecord]
    exact congrArg (EditList.mk _) (List.append_assoc _ _ _).symm

theorem recordAll_concat (log : List Edit) (edit : Edit) :
    recordAll (log ++ [edit]) = (recordAll log).record edit := List.foldl_concat ..

theorem oneEach_recordAll (log : List Edit) : (recordAll log).OneEach := by
  induction log using List.reverseRecOn with
  | nil => exact List.nodup_nil
  | append_singleton log edit ih =>
    rw [recordAll_concat]
    exact ih.record edit

theorem append_empty (edits : EditList) : edits ++ ({} : EditList) = edits :=
  congrArg (EditList.mk edits.lines) (List.append_nil _)

/-- A log in two lists is the log in one list. -/
theorem recordAll_append (log later : List Edit) :
    recordAll (log ++ later) = recordAll log ++ recordAll later := by
  induction later using List.reverseRecOn with
  | nil => rw [List.append_nil]; exact (append_empty _).symm
  | append_singleton later edit ih =>
    rw [← List.append_assoc, recordAll_concat, recordAll_concat, ih,
      append_record _ (oneEach_recordAll later)]

end EditList

/-- A recording gives the same list as its edits one after the other, wherever it was cut. -/
theorem Recording.edits_eq_recordAll (r : Recording) : r.edits = EditList.recordAll r.log := by
  induction r with
  | empty => rfl
  | edit earlier last ih => rw [edits, log, EditList.recordAll_concat, ih]
  | append earlier later ih ih' => rw [edits, log, EditList.recordAll_append, ih, ih']

/-! ## The edited text -/

namespace EditList

/-- What the edits of a log change about a line. -/
def changeAt (log : List Edit) (line : Nat) : LineEdits :=
  { removed := decide (.remove line ∈ log)
    before := textsAt log (.before line)
    inPlace := textsAt log (.inPlace line)
    after := textsAt log (.after line) }

theorem changeAt_append (log later : List Edit) (line : Nat) :
    changeAt (log ++ later) line = (changeAt log line).append (changeAt later line) := by
  simp [changeAt, LineEdits.append, textsAt_append]

theorem changeAt_singleton (edit : Edit) (line : Nat) :
    changeAt [edit] line = match edit with
      | .before own text => if own = line then { before := [text] } else {}
      | .replace own text => if own = line then { inPlace := [text] } else {}
      | .remove own => if own = line then { removed := true } else {}
      | .after own text => if own = line then { after := [text] } else {}
      | .data _ => {} := by
  cases edit with
  | data text => rfl
  | remove own =>
    by_cases h : own = line <;> simp [changeAt, textsAt, Edit.place, Edit.text?, @eq_comm _ line, h]
  | before own text | replace own text | after own text =>
    by_cases h : own = line <;> simp [changeAt, textsAt, Edit.place, Edit.text?, h]

/-- An edit is added to what its line has already. -/
theorem atLine_record (edits : EditList) (edit : Edit) (line : Nat) :
    (edits.record edit).atLine line = (edits.atLine line).append (changeAt [edit] line) := by
  have hadd : ∀ (own : Nat) (change : LineEdits), (edits.addAt own change).atLine line =
      (edits.atLine line).append (if own = line then change else {}) :=
    fun own change => (edits.adds_addAt own change).atLine line
  rw [changeAt_singleton]
  cases edit with
  | data text => exact (LineEdits.append_empty _).symm
  | before own text | replace own text | remove own | after own text => exact hadd own _

/-- What a line has in the list is what the log has for it. -/
theorem atLine_recordAll (log : List Edit) (line : Nat) :
    (recordAll log).atLine line = changeAt log line := by
  induction log using List.reverseRecOn with
  | nil => rfl
  | append_singleton log edit ih =>
    rw [recordAll_concat, atLine_record, ih, changeAt_append]

theorem dataTexts_recordAll (log : List Edit) :
    (recordAll log).dataTexts = textsAt log .data := by
  induction log using List.reverseRecOn with
  | nil => rfl
  | append_singleton log edit ih =>
    rw [recordAll_concat, textsAt_append, ← ih]
    cases edit <;>
      simp [record, before, replace, remove, after, addAt, addData, textsAt, Edit.place, Edit.text?]

/-- Lines are edited one by one. -/
theorem applyFrom_eq_flatMap (edits : EditList) (line : Nat) (source : List String) :
    edits.applyFrom line source =
      (source.zipIdx line).flatMap fun (text, line) => (edits.atLine line).apply text := by
  induction source generalizing line with
  | nil => rfl
  | cons text source ih => rw [applyFrom, ih, List.zipIdx_cons, List.flatMap_cons]

theorem apply_changeAt (log : List Edit) (line : Nat) (text : String) :
    (changeAt log line).apply text = editedLine log line text := by
  unfold LineEdits.apply editedLine changeAt cutLines
  dsimp only
  congr 2
  by_cases hnone : textsAt log (.inPlace line) = []
  · rw [hnone]
    by_cases hremoved : Edit.remove line ∈ log <;> simp [hremoved]
  · simp [hnone]

/-- Applying the edits of a log gives the text that the log tells. -/
theorem apply_recordAll (log : List Edit) (source : List String) :
    (recordAll log).apply source = edited log source := by
  unfold apply edited
  rw [applyFrom_eq_flatMap, dataTexts_recordAll]
  congr 1
  refine List.flatMap_congr fun entry _ => ?_
  show ((recordAll log).atLine entry.2).apply entry.1 = editedLine log entry.2 entry.1
  rw [atLine_recordAll, apply_changeAt]

end EditList

theorem textsAt_congr {log log' : List Edit} {place : EditPlace}
    (h : log.filter (·.place = place) = log'.filter (·.place = place)) :
    textsAt log place = textsAt log' place := congrArg (List.filterMap Edit.text?) h

/-- A removal is the only edit at its place. -/
theorem remove_mem_iff {log : List Edit} {line : Nat} :
    .remove line ∈ log ↔ log.filter (·.place = .removal line) ≠ [] := by
  constructor
  · intro hmem
    exact List.ne_nil_of_mem (List.mem_filter.2 ⟨hmem, decide_eq_true rfl⟩)
  · intro hne
    obtain ⟨edit, hedit⟩ := List.exists_mem_of_ne_nil _ hne
    obtain ⟨hmem, hplace⟩ := List.mem_filter.1 hedit
    -- all other edits have another place
    cases edit with
    | remove own =>
      obtain rfl : own = line := by simpa [Edit.place] using hplace
      exact hmem
    | before own text | replace own text | after own text | data text =>
      simp [Edit.place] at hplace

/-- Only the edits at each place and their order count. -/
theorem edited_congr {log log' : List Edit}
    (h : ∀ place, log.filter (·.place = place) = log'.filter (·.place = place))
    (source : List String) : edited log source = edited log' source := by
  have hline : ∀ line text, editedLine log line text = editedLine log' line text := by
    intro line text
    unfold editedLine
    simp only [textsAt_congr (h _), remove_mem_iff, h]
  unfold edited
  rw [textsAt_congr (h _)]
  congr 1
  exact List.flatMap_congr fun (text, line) _ => hline line text

/-- The edited text is read off the log, whatever the way in which the log was recorded: for each
line its texts before, then those in its place or the line unless it is removed, then those behind
it, each in the order of the log. So it does not matter which lists are appended first, an empty
list changes nothing, and edits at other places that come in between have no effect. -/
theorem Recording.apply_edits (r : Recording) (source : List String) :
    r.edits.apply source = edited r.log source ∧
    (∀ s t : Recording, r.edits ++ s.edits ++ t.edits = r.edits ++ (s.edits ++ t.edits)) ∧
    {} ++ r.edits = r.edits ∧ r.edits ++ {} = r.edits ∧
    ∀ s : Recording,
      (∀ place, r.log.filter (·.place = place) = s.log.filter (·.place = place)) →
        r.edits.apply source = s.edits.apply source := by
  have hone : ∀ s t : Recording, s.log = t.log → s.edits = t.edits := by
    intro s t hlog
    rw [edits_eq_recordAll, edits_eq_recordAll, hlog]
  have hedited : ∀ s : Recording, s.edits.apply source = edited s.log source := by
    intro s
    rw [edits_eq_recordAll, EditList.apply_recordAll]
  refine ⟨hedited r, fun s t => ?_, ?_, EditList.append_empty _, fun s hplaces => ?_⟩
  · exact hone (append (append r s) t) (append r (append s t)) (List.append_assoc _ _ _)
  · exact hone (append empty r) r (List.nil_append _)
  · rw [hedited r, hedited s]
    exact edited_congr hplaces source

/-- Two lists, of which the second one is appended; both change the first line. -/
def appendedLists : Recording :=
  .append (.edit (.edit .empty (.before 0 "one\ntwo")) (.remove 1))
    (.edit (.edit (.edit .empty (.after 1 "behind")) (.before 0 "three")) (.replace 0 "new"))

/-- The same edits in one list, line by line. -/
def lineByLine : Recording :=
  .edit (.edit (.edit (.edit (.edit .empty (.before 0 "one\ntwo")) (.before 0 "three"))
    (.replace 0 "new")) (.remove 1)) (.after 1 "behind")

/-- The theorem applied to both recordings: edits of one line come in their order, and all that
matters is the order within a line. -/
theorem Recording.apply_edits_appendedLists :
    (∀ place, appendedLists.log.filter (·.place = place) =
      lineByLine.log.filter (·.place = place)) ∧
    appendedLists.edits.apply ["a", "b"] = edited appendedLists.log ["a", "b"] ∧
    edited appendedLists.log ["a", "b"] = ["one", "two", "three", "new", "behind", ".data"] ∧
    appendedLists.edits.apply ["a", "b"] = lineByLine.edits.apply ["a", "b"] := by
  have hplaces : ∀ place, appendedLists.log.filter (·.place = place) =
      lineByLine.log.filter (·.place = place) := by
    intro place
    cases place with
    | data => rfl
    | removal line | inPlace line | before line | after line =>
      simp [appendedLists, lineByLine, log, Edit.place, List.filter_cons]
  obtain ⟨hedited, -, -, -, hsame⟩ := apply_edits appendedLists ["a", "b"]
  exact ⟨hplaces, hedited, by decide, hsame lineByLine hplaces⟩

end RamOverlay
