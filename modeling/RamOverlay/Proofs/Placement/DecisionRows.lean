import Mathlib.Algebra.BigOperators.Group.Finset.Basic
import RamOverlay.Proofs.Keyed
import RamOverlay.Proofs.Placement.BlockNames
import RamOverlay.Proofs.Text.Numerals
import RamOverlay.Proofs.Text.Records

/-!
# What a decision says

A decision is a text of lines. Three of them, by their place, hold an integer behind a colon. Each
line that is neither a comment nor blank is a row, also one of the three. The last row of a name
counts.

* **`IsSummary`**, **`IsRow`**: what stands on a line, by its fields and not by how they are read.
* **`Refused`**: why a text is refused. The three lines come first.
* **`rowsFrom_all`**: what the table holds after some rows, by induction on the lines.
* **`Attached`**: what attaching a decision makes of a graph.
* **`parse_outcome`**: which texts are read, and what is made of them.
-/

namespace RamOverlay

theorem totalOf_eq_sum {α : Type} (f : α → Nat) (as : List α) : totalOf f as = (as.map f).sum := by
  induction as with
  | nil => rfl
  | cons a as ih => rw [totalOf_cons, ih, List.map_cons, List.sum_cons]

namespace Decision

open ProgramBlock

/-! ## Lines of a decision -/

/-- The indices of the lines with the cost, the cycles and the RAM bytes. -/
def summaryLines : List Nat := [1, 3, 6]

/-- The line at an index; there are empty ones behind the last. -/
def lineAt (lines : List (List Char)) (index : Nat) : List Char := lines[index]?.getD []

/-- An integer stands between the first colon and the next, or the end of the line. -/
def IsSummary (line : List Char) (value : Int) : Prop :=
  ∃ label field more, Text.Fields ':' line (label :: field :: more) ∧
    Text.IsInteger summaryLimit (Text.trim field) value

/-- The line is a comment, or blank. -/
def IsNoRow (line : List Char) : Prop :=
  line.head? = some '#' ∨ ∀ c ∈ line, Text.isBlank c = true

/-- The line is a row with the name of a block, its size, and two flags, with commas between them.
Further fields do not matter. -/
def IsRow (line : List Char) (name : String) (row : BlockDecision) : Prop :=
  ¬ IsNoRow line ∧ ∃ first size inRam instrumented more,
    Text.Fields ',' line (first :: size :: inRam :: instrumented :: more) ∧
      name = String.ofList (Text.trim first) ∧
      Text.IsNatural Text.wordLimit (Text.trim size) row.size ∧
      (row.inRam = true ↔ Text.trim inRam = ['1']) ∧
      (row.instrumented = true ↔ Text.trim instrumented = ['1'])

/-- The line at an index holds an integer. -/
def HasSummary (lines : List (List Char)) (index : Nat) : Prop :=
  ∃ value, IsSummary (lineAt lines index) value

/-- A line is left out, or holds a row. -/
def WellFormed (line : List Char) : Prop := IsNoRow line ∨ ∃ name row, IsRow line name row

/-- Why lines are refused: the first of the three lines without an integer, or else the first line
that should be a row. -/
inductive Refused (lines : List (List Char)) : DecisionError → Prop where
  | summary {before : List Nat} {index : Nat}
      (h : FirstWithout (HasSummary lines) summaryLines before index) :
      Refused lines { line := index + 1, text := String.ofList (lineAt lines index) }
  | row {before : List (List Char)} {line : List Char}
      (hsummaries : ∀ index ∈ summaryLines, HasSummary lines index)
      (h : FirstWithout WellFormed lines before line) :
      Refused lines { line := before.length + 1, text := String.ofList line }

/-- The decision says what the lines say. -/
structure Says (decision : Decision) (lines : List (List Char)) : Prop where
  cost : IsSummary (lineAt lines 1) decision.cost
  cycles : IsSummary (lineAt lines 3) decision.cycles
  ramSize : IsSummary (lineAt lines 6) decision.ramSize
  rows : ∀ name row, decision.block? name = some row ↔
    LastWith (fun line row => IsRow line name row) lines row

section Lines

variable {line : List Char} {lines : List (List Char)} {index : Nat} {value : Int} {name : String}
  {row : BlockDecision}

/-- The reader takes exactly the summary lines, for their values. -/
theorem summaryValue?_eq_some_iff : summaryValue? line = some value ↔ IsSummary line value := by
  unfold summaryValue? IsSummary
  constructor
  · intro hread
    split at hread
    next label field more hfields =>
      exact ⟨label, field, more, Text.pieces_eq_iff.1 hfields, Text.integer?_eq_some_iff.1 hread⟩
    next => cases hread
  · rintro ⟨label, field, more, hfields, hvalue⟩
    rw [hfields.pieces_eq]
    exact Text.integer?_eq_some_iff.2 hvalue

theorem isSkipped_iff : isSkipped line = true ↔ IsNoRow line := by
  simp [isSkipped, IsNoRow]

/-- Of the lines that are not skipped, the reader takes exactly the rows. -/
theorem row?_eq_some_iff (hrow : ¬ IsNoRow line) :
    row? line = some (name, row) ↔ IsRow line name row := by
  unfold row? IsRow
  simp only [hrow, not_false_eq_true, true_and, ← Text.pieces_eq_iff, ← Text.natural?_eq_some_iff]
  constructor
  · intro hread
    split at hread
    next first size inRam instrumented more hfields =>
      simp only [List.map_eq_cons_iff] at hfields
      obtain ⟨first, _, hpieces, rfl, size, _, rfl, rfl, inRam, _, rfl, rfl, instrumented, more,
        rfl, rfl, -⟩ := hfields
      obtain ⟨n, hn, heq⟩ := Option.map_eq_some_iff.1 hread
      obtain ⟨rfl, rfl⟩ := Prod.mk.inj heq
      exact ⟨first, size, inRam, instrumented, more, hpieces, rfl, hn, by simp, by simp⟩
    next => cases hread
  · rintro ⟨first, size, inRam, instrumented, more, hpieces, rfl, hsize, hinRam, hinstrumented⟩
    -- a flag is set exactly if its field reads 1
    have hflag : (Text.trim inRam == ['1']) = row.inRam :=
      Bool.eq_iff_iff.2 (beq_iff_eq.trans hinRam.symm)
    have hflag' : (Text.trim instrumented == ['1']) = row.instrumented :=
      Bool.eq_iff_iff.2 (beq_iff_eq.trans hinstrumented.symm)
    rw [hpieces]
    show (Text.natural? Text.wordLimit (Text.trim size)).map _ = _
    rw [hsize, hflag, hflag']
    rfl

theorem summaryAt_of_isSummary (h : IsSummary (lineAt lines index) value) :
    summaryAt lines index = .ok value := by
  have hread := summaryValue?_eq_some_iff.2 h
  unfold lineAt at hread
  unfold summaryAt
  dsimp only
  rw [hread]

/-- A line without a summary is named in the error, counted from one. -/
theorem summaryAt_of_not (h : ¬ HasSummary lines index) : summaryAt lines index =
    .error { line := index + 1, text := String.ofList (lineAt lines index) } := by
  have hread : summaryValue? (lineAt lines index) = none :=
    Option.eq_none_iff_forall_not_mem.2 fun value hvalue =>
      h ⟨value, summaryValue?_eq_some_iff.1 hvalue⟩
  unfold lineAt at hread ⊢
  unfold summaryAt
  dsimp only
  rw [hread]

theorem wellFormed_iff : WellFormed line ↔ isSkipped line = true ∨ (row? line).isSome = true := by
  unfold WellFormed
  rw [isSkipped_iff]
  refine or_congr_right' fun hrow => ?_
  simp only [Option.isSome_iff_exists, Prod.exists, row?_eq_some_iff hrow]

end Lines

/-! ## All rows -/

section Rows

variable {lines before : List (List Char)} {line : List Char} {rows : Keyed String BlockDecision}

/-- A line is left out, or its row is put into the table. -/
theorem rowsFrom_wellFormed (number : Nat) (rows : Keyed String BlockDecision)
    (hline : WellFormed line) : ∃ rows' : Keyed String BlockDecision,
    (∀ rest, rowsFrom number rows (line :: rest) = rowsFrom (number + 1) rows' rest) ∧
    (rows.keys.Nodup → rows'.keys.Nodup) ∧
    ∀ name row, rows'.get? name = some row ↔ IsRow line name row ∨
      (∀ row', ¬ IsRow line name row') ∧ rows.get? name = some row := by
  rcases hline with hskipped | ⟨name, row, hrow⟩
  · refine ⟨rows, fun rest => ?_, id, fun name row => ?_⟩
    · rw [rowsFrom, if_pos (isSkipped_iff.2 hskipped)]
    · have hnone : ∀ row', ¬ IsRow line name row' := fun row' hrow => hrow.1 hskipped
      simp [hnone]
  · have hread := (row?_eq_some_iff hrow.1).2 hrow
    refine ⟨rows.put name row, fun rest => ?_, fun hnodup => Keyed.nodup_keys_adjust hnodup name _,
      fun name' row' => ?_⟩
    · rw [rowsFrom, if_neg fun hskipped => hrow.1 (isSkipped_iff.1 hskipped), hread]
    · -- a line is the row of one name only
      simp only [Keyed.get?_put, ← row?_eq_some_iff hrow.1, hread]
      by_cases hname : name = name' <;> simp [hname]

/-- Without a malformed line, the table holds the last row of each name, and else what it held. -/
theorem rowsFrom_all (number : Nat) (rows : Keyed String BlockDecision)
    (hlines : ∀ line ∈ lines, WellFormed line) : ∃ rows' : Keyed String BlockDecision,
    rowsFrom number rows lines = .ok rows' ∧ (rows.keys.Nodup → rows'.keys.Nodup) ∧
    ∀ name row, rows'.get? name = some row ↔
      LastWith (fun line row => IsRow line name row) lines row ∨
        (∀ line ∈ lines, ∀ row', ¬ IsRow line name row') ∧ rows.get? name = some row := by
  induction lines generalizing number rows with
  | nil => exact ⟨rows, rfl, id, by simp [not_lastWith_nil]⟩
  | cons line lines ih =>
    obtain ⟨hline, hlines⟩ := List.forall_mem_cons.1 hlines
    obtain ⟨first, hfirst, hnodup, hget⟩ := rowsFrom_wellFormed number rows hline
    obtain ⟨rows', hrows, hnodup', hget'⟩ := ih (number + 1) first hlines
    refine ⟨rows', (hfirst lines).trans hrows, fun h => hnodup' (hnodup h), fun name row => ?_⟩
    -- the last row is in the rest, or it is this one, or it was there before
    rw [hget', hget, lastWith_cons, List.forall_mem_cons]
    tauto

/-- The first malformed line is an error. -/
theorem rowsFrom_first (number : Nat) (rows : Keyed String BlockDecision)
    (hfirst : FirstWithout WellFormed lines before line) : rowsFrom number rows lines =
      .error { line := number + before.length, text := String.ofList line } := by
  induction lines generalizing number rows before with
  | nil => exact absurd hfirst not_firstWithout_nil
  | cons next lines ih =>
    by_cases hnext : WellFormed next
    · -- a well-formed line is counted, and the first malformed one comes later
      obtain ⟨init, rfl, hinit⟩ := (firstWithout_cons_of hnext).1 hfirst
      obtain ⟨rows', hrows, -⟩ := rowsFrom_wellFormed number rows hnext
      rw [hrows, ih (number + 1) rows' hinit, List.length_cons, Nat.add_right_comm, Nat.add_assoc]
    · obtain ⟨rfl, rfl⟩ := (firstWithout_cons_of_not hnext).1 hfirst
      rw [wellFormed_iff, not_or, Bool.not_eq_true] at hnext
      rw [rowsFrom, hnext.1, Option.not_isSome_iff_eq_none.1 hnext.2]
      rfl

end Rows

/-! ## Reading a decision -/

section Parse

variable {text : String}

/-- With the three integers, what is left to read are the rows. -/
theorem parse_of_summaries
    (h : ∀ index ∈ summaryLines, HasSummary (Text.lines text.toList) index) :
    ∃ cost cycles ramSize : Int, IsSummary (lineAt (Text.lines text.toList) 1) cost ∧
      IsSummary (lineAt (Text.lines text.toList) 3) cycles ∧
      IsSummary (lineAt (Text.lines text.toList) 6) ramSize ∧
      parse text = (rowsFrom 1 [] (Text.lines text.toList)).map fun rows =>
        { cost, cycles, ramSize, rows } := by
  obtain ⟨cost, hcost⟩ := h 1 (by decide)
  obtain ⟨cycles, hcycles⟩ := h 3 (by decide)
  obtain ⟨ramSize, hramSize⟩ := h 6 (by decide)
  refine ⟨cost, cycles, ramSize, hcost, hcycles, hramSize, ?_⟩
  unfold parse
  dsimp only
  -- the rows are read last, so only they can still fail
  rw [summaryAt_of_isSummary hcost, summaryAt_of_isSummary hcycles,
    summaryAt_of_isSummary hramSize]
  cases rowsFrom 1 [] (Text.lines text.toList) <;> rfl

/-- The first of the three lines without an integer is an error. -/
theorem parse_of_not_summary {before : List Nat} {index : Nat}
    (h : FirstWithout (HasSummary (Text.lines text.toList)) summaryLines before index) :
    parse text = .error
      { line := index + 1, text := String.ofList (lineAt (Text.lines text.toList) index) } := by
  unfold parse
  dsimp only
  -- the lines are read in order, and the first that holds no integer ends it
  by_cases hcost : HasSummary (Text.lines text.toList) 1
  · obtain ⟨init, -, h⟩ := (firstWithout_cons_of hcost).1 h
    obtain ⟨cost, hcost⟩ := hcost
    rw [summaryAt_of_isSummary hcost]
    by_cases hcycles : HasSummary (Text.lines text.toList) 3
    · obtain ⟨init, -, h⟩ := (firstWithout_cons_of hcycles).1 h
      obtain ⟨cycles, hcycles⟩ := hcycles
      rw [summaryAt_of_isSummary hcycles]
      by_cases hramSize : HasSummary (Text.lines text.toList) 6
      · obtain ⟨init, -, h⟩ := (firstWithout_cons_of hramSize).1 h
        exact absurd h not_firstWithout_nil
      · obtain ⟨-, rfl⟩ := (firstWithout_cons_of_not hramSize).1 h
        rw [summaryAt_of_not hramSize]
        rfl
    · obtain ⟨-, rfl⟩ := (firstWithout_cons_of_not hcycles).1 h
      rw [summaryAt_of_not hcycles]
      rfl
  · obtain ⟨-, rfl⟩ := (firstWithout_cons_of_not hcost).1 h
    rw [summaryAt_of_not hcost]
    rfl

/-- A refused text gives its first error. -/
theorem parse_of_refused {e : DecisionError} (h : Refused (Text.lines text.toList) e) :
    parse text = .error e := by
  cases h with
  | summary h => exact parse_of_not_summary h
  | row hsummaries h =>
    obtain ⟨cost, cycles, ramSize, -, -, -, hparse⟩ := parse_of_summaries hsummaries
    rw [hparse, rowsFrom_first 1 [] h, Nat.add_comm]
    rfl

/-- A text with its summaries and well-formed rows gives the decision that it says. -/
theorem parse_of_wellFormed
    (hsummaries : ∀ index ∈ summaryLines, HasSummary (Text.lines text.toList) index)
    (hlines : ∀ line ∈ Text.lines text.toList, WellFormed line) : ∃ decision,
      parse text = .ok decision ∧ decision.Says (Text.lines text.toList) ∧
        decision.rows.keys.Nodup := by
  obtain ⟨cost, cycles, ramSize, hcost, hcycles, hramSize, hparse⟩ := parse_of_summaries hsummaries
  obtain ⟨rows, hrows, hnodup, hget⟩ := rowsFrom_all 1 [] hlines
  refine ⟨{ cost, cycles, ramSize, rows }, by rw [hparse, hrows]; rfl,
    ⟨hcost, hcycles, hramSize, fun name row => ?_⟩, hnodup List.nodup_nil⟩
  show rows.get? name = some row ↔ _
  rw [hget]
  simp

/-- A text is read, or refused for one reason. -/
theorem parse_cases (text : String) :
    (∃ e, Refused (Text.lines text.toList) e) ∨
      (∀ index ∈ summaryLines, HasSummary (Text.lines text.toList) index) ∧
        ∀ line ∈ Text.lines text.toList, WellFormed line := by
  by_cases hsummaries : ∀ index ∈ summaryLines, HasSummary (Text.lines text.toList) index
  · by_cases hlines : ∀ line ∈ Text.lines text.toList, WellFormed line
    · exact .inr ⟨hsummaries, hlines⟩
    · obtain ⟨before, line, hfirst⟩ := exists_firstWithout hlines
      exact .inl ⟨_, .row hsummaries hfirst⟩
  · obtain ⟨before, index, hfirst⟩ := exists_firstWithout hsummaries
    exact .inl ⟨_, .summary hfirst⟩

end Parse

/-! ## What a decision does -/

variable {decision : Decision}

/-- With each name once, the sizes are added up name by name. -/
theorem ramBytes_eq_sum (hnodup : decision.rows.keys.Nodup) : ∃ names : Finset String,
    (∀ name, name ∈ names ↔ ∃ row, decision.block? name = some row ∧ row.inRam = true) ∧
      decision.ramBytes = ∑ name ∈ names, ((decision.block? name).map (·.size)).getD 0 := by
  have hget : ∀ name row, decision.block? name = some row ↔ (name, row) ∈ decision.rows :=
    fun name row => Keyed.get?_eq_some_iff hnodup
  -- a name stands in one row, so the sum over the rows is one over the names
  have honce : ((decision.rows.filter (·.2.inRam)).map (·.1)).Nodup :=
    hnodup.sublist (List.filter_sublist.map _)
  refine ⟨((decision.rows.filter (·.2.inRam)).map (·.1)).toFinset, fun name => ?_, ?_⟩
  · simp [hget]
  · rw [List.sum_toFinset _ honce, List.map_map, ramBytes, totalOf_eq_sum]
    refine congrArg List.sum (List.map_congr_left fun entry hentry => ?_)
    have hrow := (hget entry.1 entry.2).2 (List.mem_filter.1 hentry).1
    show entry.2.size = ((decision.block? entry.1).map (·.size)).getD 0
    rw [hrow]
    rfl

/-- What attaching a decision makes of a graph: a block that has a row is placed by it, and nothing
else changes. -/
structure Attached (decision : Decision) (graph graph' : Graph) : Prop where
  unit : graph'.unit = graph.unit
  starts : graph'.starts = graph.starts
  size : graph'.size = graph.size
  named : ∀ (id : BlockId) (node : Node) (row : BlockDecision), graph.nodes[id]? = some node →
    decision.block? (Graph.nameOf graph.unit node.block) = some row →
      graph'.nodes[id]? = some
        { node with placement := { inRam := row.inRam, instrumented := row.instrumented } }
  others : ∀ (id : BlockId) (node : Node), graph.nodes[id]? = some node →
    decision.block? (Graph.nameOf graph.unit node.block) = none → graph'.nodes[id]? = some node

theorem attached_applyTo (decision : Decision) (graph : Graph) :
    decision.Attached graph (decision.applyTo graph) where
  unit := rfl
  starts := rfl
  size := Array.size_mapIdx
  named := by
    intro id node row hnode hrow
    unfold applyTo Graph.mapNodes
    rw [Array.getElem?_mapIdx, hnode, Option.map_some, hrow]
  others := by
    intro id node hnode hnone
    unfold applyTo Graph.mapNodes
    rw [Array.getElem?_mapIdx, hnode, Option.map_some, hnone]

/-- What is placed is counted block by block, by name. -/
theorem placedIn_eq_countP (decision : Decision) (graphs : List Graph) : decision.placedIn graphs =
    (ofGraphs graphs).countP fun b => (decision.block? b.name).any (·.inRam) := by
  unfold placedIn
  rw [← name_ofGraphs, List.countP_map]
  refine List.countP_congr fun b _ => ?_
  cases h : decision.block? b.name <;> simp [h]

/-- A text is read exactly if its second, fourth and seventh line hold an integer behind a colon and
each line that is no comment and not blank is a row; else the error names the first offending line,
the three lines before any row. What is read tells the last row of each name, and the sizes of the
names that are placed in RAM; attached to graphs, it places the blocks that have a row, and counts
those that it places in RAM. -/
theorem parse_outcome (text : String) :
    ((∃ decision, parse text = .ok decision) ↔
      (∀ index ∈ summaryLines, HasSummary (Text.lines text.toList) index) ∧
        ∀ line ∈ Text.lines text.toList, WellFormed line) ∧
    (∀ e, parse text = .error e ↔ Refused (Text.lines text.toList) e) ∧
    ∀ decision, parse text = .ok decision →
      decision.Says (Text.lines text.toList) ∧
      (∃ names : Finset String,
        (∀ name, name ∈ names ↔ ∃ row, decision.block? name = some row ∧ row.inRam = true) ∧
          decision.ramBytes = ∑ name ∈ names, ((decision.block? name).map (·.size)).getD 0) ∧
      ∀ graphs, List.Forall₂ decision.Attached graphs (decision.apply graphs).value.1 ∧
        (decision.apply graphs).value.2 =
          (ofGraphs graphs).countP fun b => (decision.block? b.name).any (·.inRam) := by
  refine ⟨⟨?_, ?_⟩, fun e => ⟨fun herror => ?_, parse_of_refused⟩, fun decision hok => ?_⟩
  · rintro ⟨decision, hok⟩
    rcases parse_cases text with ⟨e, hrefused⟩ | hwell
    · have herror := hok.symm.trans (parse_of_refused hrefused)
      cases herror
    · exact hwell
  · rintro ⟨hsummaries, hlines⟩
    obtain ⟨decision, hok, -⟩ := parse_of_wellFormed hsummaries hlines
    exact ⟨decision, hok⟩
  · rcases parse_cases text with ⟨e', hrefused⟩ | ⟨hsummaries, hlines⟩
    · obtain rfl := Except.error.inj (herror.symm.trans (parse_of_refused hrefused))
      exact hrefused
    · obtain ⟨decision, hok, -⟩ := parse_of_wellFormed hsummaries hlines
      have hboth := herror.symm.trans hok
      cases hboth
  · rcases parse_cases text with ⟨e, hrefused⟩ | ⟨hsummaries, hlines⟩
    · have hboth := hok.symm.trans (parse_of_refused hrefused)
      cases hboth
    · obtain ⟨read, hread, htold, hnodup⟩ := parse_of_wellFormed hsummaries hlines
      obtain rfl := Except.ok.inj (hok.symm.trans hread)
      refine ⟨htold, ramBytes_eq_sum hnodup, fun graphs => ⟨?_, placedIn_eq_countP decision graphs⟩⟩
      exact List.forall₂_map_right_iff.2
        (List.forall₂_same.2 fun graph _ => attached_applyTo decision graph)

/-- A row is repeated, one is blank around its size and has a field too many, and one names no
block. -/
def armRows : String :=
  "#\n#:1234\n#\n#:-99:x\n#\n#\n#: +6\nt.s_6,6,1,1\nt.s_6,4,0,0\r\n\t\nt.s_.L2, 2 ,1,0,x\n"
    ++ "t.s_gone,2,1,0\n"

/-- What the rows say, with the last row of each name. -/
def armDecision : Decision :=
  { cost := 1234, cycles := -99, ramSize := 6
    rows := [("t.s_6", { size := 4, inRam := false, instrumented := false }),
      ("t.s_.L2", { size := 2, inRam := true, instrumented := false }),
      ("t.s_gone", { size := 2, inRam := true, instrumented := false })] }

/-- Of two blocks that were in RAM, the rows leave one there. A cost that is not in a comment is
taken for a row. -/
theorem parse_outcome_armRows :
    parse armRows = .ok armDecision ∧ armDecision.Says (Text.lines armRows.toList) ∧
    armDecision.ramBytes = 4 ∧
    List.Forall₂ armDecision.Attached Program.twoArmsPlaced
      (armDecision.apply Program.twoArmsPlaced).value.1 ∧
    (armDecision.apply Program.twoArmsPlaced).value.2 = 1 ∧
    Refused (Text.lines "\n:1\n\n:2\n\n\n:3\nt.s_g,9\n".toList) { line := 2, text := ":1" } := by
  have hread : parse armRows = .ok armDecision := by decide +kernel
  obtain ⟨htold, -, happly⟩ := (parse_outcome armRows).2.2 armDecision hread
  have hbytes : armDecision.ramBytes = 4 := by decide +kernel
  have hplaced : (armDecision.apply Program.twoArmsPlaced).value.2 = 1 := by decide +kernel
  have herror : parse "\n:1\n\n:2\n\n\n:3\nt.s_g,9\n" = .error { line := 2, text := ":1" } := by
    decide +kernel
  exact ⟨hread, htold, hbytes, (happly Program.twoArmsPlaced).1, hplaced,
    ((parse_outcome "\n:1\n\n:2\n\n\n:3\nt.s_g,9\n").2.1 _).1 herror⟩

end Decision

end RamOverlay
