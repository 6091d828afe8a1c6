import Mathlib.Data.List.ProdSigma
import RamOverlay.Proofs.Placement.MarkLocations
import RamOverlay.Proofs.Relocation.Obstacles
import RamOverlay.Proofs.Text.Records

/-!
# What a profile makes of counts

A profile is a text of lines; each names a block by its unit and the line at which it starts, and
holds a count. The last line that names a block counts, and the first malformed line ends the
profile.

* **`ProfileEntry.OnLine`**: what stands on a line, by the words of the line and not by how they are
  read. A unit may have the separator in its name, since the last one counts.
* **`Graph.IsBuilt.line_ne`**: the blocks of a routine start at different lines, so that a line
  names one of them at most.
* **`Graph.Recounted`**: what some lines make of a graph. One line first (`recounted_applyEntry`),
  then a line before others (`Recounted.cons`).
* **`applyProfile_outcome`**: the graphs after a profile, and its result.
-/

namespace RamOverlay

/-! ## Lines of a profile -/

namespace ProfileEntry

/-- The character between the unit and the line of a location. -/
def separatorOf (location : List Char) : Char := if ':' ∈ location then ':' else '_'

/-- The first word of the line is a location, a unit and a line number around the last separator,
and the second word a count. Further words do not matter. -/
def OnLine (entry : ProfileEntry) (raw : List Char) : Prop :=
  ∃ location line count more, Text.Words raw (location :: count :: more) ∧
    location = entry.unit.toList ++ separatorOf location :: line ∧ separatorOf location ∉ line ∧
    Text.IsNatural Text.doubleLimit line entry.line ∧
    Text.IsNatural Text.doubleLimit count entry.count

/-- A line is blank, or holds an entry. -/
def WellFormed (raw : List Char) : Prop :=
  Text.Words raw [] ∨ ∃ entry : ProfileEntry, entry.OnLine raw

variable {entry other : ProfileEntry} {raw location : List Char} {fields : List (List Char)}

/-- The fields of a line are an entry if the first one is a unit and a line, and the second one a
count. -/
theorem ofFields?_eq_some_iff : ofFields? location fields = some entry ↔
    ∃ line count more, fields = count :: more ∧
      location = entry.unit.toList ++ separatorOf location :: line ∧ separatorOf location ∉ line ∧
      Text.IsNatural Text.doubleLimit line entry.line ∧
      Text.IsNatural Text.doubleLimit count entry.count := by
  -- A colon anywhere decides for the colon, an underscore is the other choice.
  have hseparator : (if location.contains ':' then ':' else '_') = separatorOf location := by
    simp [separatorOf]
  unfold ofFields?
  rw [hseparator]
  simp only [Option.bind_eq_bind, Option.bind_eq_some_iff, List.head?_eq_some_iff,
    Text.natural?_eq_some_iff, Text.cutLast_eq_some_iff, Prod.exists, Option.pure_def,
    Option.some.injEq]
  constructor
  · rintro ⟨n, ⟨count, ⟨more, hfields⟩, hcount⟩, unit, line, ⟨hlocation, hlast⟩, m, hline, rfl⟩
    exact ⟨line, count, more, hfields, by simpa using hlocation, hlast, hline, hcount⟩
  · rintro ⟨line, count, more, hfields, hlocation, hlast, hline, hcount⟩
    exact ⟨entry.count, ⟨count, ⟨more, hfields⟩, hcount⟩, _, line, ⟨hlocation, hlast⟩, entry.line,
      hline, by rw [String.ofList_toList]⟩

/-- The entry that is read from a line. -/
def entryOf? (raw : List Char) : Option ProfileEntry :=
  match Text.words raw with
  | [] => none
  | location :: fields => ofFields? location fields

theorem entryOf?_eq_some_iff : entryOf? raw = some entry ↔ entry.OnLine raw := by
  simp only [OnLine, ← Text.words_eq_iff]
  unfold entryOf?
  constructor
  · intro hread
    split at hread
    next => cases hread
    next location fields hwords =>
      obtain ⟨line, count, more, rfl, hentry⟩ := ofFields?_eq_some_iff.1 hread
      exact ⟨location, line, count, more, hwords, hentry⟩
  · rintro ⟨location, line, count, more, hwords, hentry⟩
    rw [hwords]
    exact ofFields?_eq_some_iff.2 ⟨line, count, more, rfl, hentry⟩

/-- A line holds one entry at most. -/
theorem OnLine.unique (h : entry.OnLine raw) (h' : other.OnLine raw) : entry = other :=
  Option.some.inj ((entryOf?_eq_some_iff.2 h).symm.trans (entryOf?_eq_some_iff.2 h'))

theorem wellFormed_iff : WellFormed raw ↔ Text.words raw = [] ∨ (entryOf? raw).isSome = true := by
  simp only [WellFormed, Text.words_eq_iff, Option.isSome_iff_exists, entryOf?_eq_some_iff]

instance (raw : List Char) : Decidable (WellFormed raw) := decidable_of_iff _ wellFormed_iff.symm

end ProfileEntry

/-! ## Routines that were built -/

namespace Graph

variable {graph graph' : Graph} {entry : ProfileEntry} {raw : List Char} {used : List (List Char)}

/-- A routine of a unit that was read, whatever is known about its blocks. -/
def IsBuilt (graph : Graph) : Prop :=
  ∃ (unit : SourceUnit) (labels : RoutineLabels) (built : List Graph), unit.Parsed ∧
    (unit.routines labels).run.value = .ok built ∧ ∃ routine ∈ built, routine.Alike graph

theorem IsBuilt.alike (h : graph.IsBuilt) (halike : graph.Alike graph') : graph'.IsBuilt := by
  obtain ⟨unit, labels, built, hparsed, hbuilt, routine, hroutine, hsame⟩ := h
  exact ⟨unit, labels, built, hparsed, hbuilt, routine, hroutine, hsame.trans halike⟩

/-- The blocks of a routine start at different lines. -/
theorem IsBuilt.line_ne (h : graph.IsBuilt) {id id' : BlockId} {block block' : Block}
    (hblock : graph.block? id = some block) (hblock' : graph.block? id' = some block')
    (hne : id ≠ id') : block.line ≠ block'.line := by
  obtain ⟨unit, labels, built, hparsed, hbuilt, routine, hroutine, hsame⟩ := h
  have halike : List.Forall₂ Alike (unit.routinesIn labels) built :=
    (Program.alike_routinesIn_iff hbuilt).2 (List.forall₂_same.2 fun graph _ => Alike.refl graph)
  obtain ⟨corrected, howns⟩ := SourceUnit.exists_owns hparsed.fresh halike
  obtain ⟨n, hn⟩ := List.mem_iff_getElem?.1 hroutine
  rw [hsame.block] at hblock hblock'
  obtain ⟨u, -, hu⟩ := howns.exists_isBlock hn hblock
  obtain ⟨v, -, hv⟩ := howns.exists_isBlock hn hblock'
  exact line_ne_of_place_ne hparsed hu hv
    (howns.place_ne hparsed.fresh hn hblock hn hblock' (.inr hne) hu hv)

/-- The line names a block of the graph. -/
def NamedOn (graph : Graph) (raw : List Char) : Prop :=
  ∃ (id : BlockId) (block : Block) (count : Nat), graph.block? id = some block ∧
    ProfileEntry.OnLine ⟨graph.unit, block.line, count⟩ raw

theorem mem_blocks_iff {block : Block} :
    block ∈ graph.blocks ↔ ∃ id, graph.block? id = some block := by
  unfold blocks block?
  rw [List.mem_iff_getElem?]
  simp only [List.getElem?_map, Array.getElem?_toList]

/-- Whether a line names a block of a routine can be computed. -/
theorem namedOn_iff : graph.NamedOn raw ↔ (ProfileEntry.entryOf? raw).any (fun entry =>
    entry.unit == graph.unit && graph.blocks.any fun block => block.line == entry.line) = true := by
  simp only [NamedOn, Option.any_eq_true, Bool.and_eq_true, beq_iff_eq, List.any_eq_true,
    ← ProfileEntry.entryOf?_eq_some_iff]
  constructor
  · rintro ⟨id, block, count, hblock, hread⟩
    exact ⟨_, hread, rfl, block, mem_blocks_iff.2 ⟨id, hblock⟩, rfl⟩
  · rintro ⟨entry, hread, hunit, block, hblock, hline⟩
    obtain ⟨id, hid⟩ := mem_blocks_iff.1 hblock
    exact ⟨id, block, entry.count, hid, by rw [hread, ← hunit, hline]⟩

instance (graph : Graph) (raw : List Char) : Decidable (graph.NamedOn raw) :=
  decidable_of_iff _ namedOn_iff.symm

theorem Alike.namedOn_iff (h : graph.Alike graph') : graph'.NamedOn raw ↔ graph.NamedOn raw := by
  unfold NamedOn
  simp only [h.block, h.unit]

/-! ## Counts -/

/-- What lines of a profile make of a graph: a block has the count of the last line that names it,
or the count that it had before. -/
structure Recounted (used : List (List Char)) (graph graph' : Graph) : Prop where
  unit : graph'.unit = graph.unit
  starts : graph'.starts = graph.starts
  size : graph'.size = graph.size
  node : ∀ (id : BlockId) (node : Node), graph.nodes[id]? = some node → ∃ count : Nat,
    graph'.nodes[id]? = some { node with iterations := count } ∧
      (LastWith (fun raw n => ProfileEntry.OnLine ⟨graph.unit, node.block.line, n⟩ raw) used count ∨
        (∀ raw ∈ used, ∀ n, ¬ ProfileEntry.OnLine ⟨graph.unit, node.block.line, n⟩ raw) ∧
          count = node.iterations)

theorem Recounted.alike (h : graph.Recounted used graph') : graph.Alike graph' := by
  refine ⟨h.unit, h.starts, fun id => ?_⟩
  unfold block?
  cases hnode : graph.nodes[id]? with
  | none =>
    have hsize : graph'.nodes.size = graph.nodes.size := h.size
    rw [Array.getElem?_eq_none (hsize ▸ Array.getElem?_eq_none_iff.1 hnode)]
  | some node =>
    obtain ⟨count, hcount, -⟩ := h.node id node hnode
    rw [hcount]
    rfl

theorem recounted_nil (graph : Graph) : graph.Recounted [] graph :=
  ⟨rfl, rfl, rfl, fun _ node hnode => ⟨node.iterations, hnode, .inr ⟨by simp, rfl⟩⟩⟩

/-- A line before others counts where they name no block. -/
theorem Recounted.cons {graph'' : Graph} (h : graph.Recounted [raw] graph')
    (h' : graph'.Recounted used graph'') : graph.Recounted (raw :: used) graph'' where
  unit := h'.unit.trans h.unit
  starts := h'.starts.trans h.starts
  size := h'.size.trans h.size
  node := by
    intro id node hnode
    obtain ⟨first, hfirst, hline⟩ := h.node id node hnode
    obtain ⟨count, hcount, hlines⟩ := h'.node id _ hfirst
    rw [h.unit] at hlines
    refine ⟨count, hcount, ?_⟩
    -- only where the lines of `used` are silent does `raw` count
    rcases hlines with hlast | ⟨hnone, hsame⟩
    · exact .inl (lastWith_cons.2 (.inl hlast))
    · rcases hline with hraw | ⟨hraw, hbefore⟩
      · rw [lastWith_cons] at hraw
        rcases hraw with hnil | ⟨honLine, -⟩
        · exact absurd hnil not_lastWith_nil
        · exact .inl (lastWith_cons.2 (.inr ⟨hsame ▸ honLine, hnone⟩))
      · exact .inr ⟨List.forall_mem_cons.2 ⟨hraw raw List.mem_cons_self, hnone⟩,
          hsame.trans hbefore⟩

/-- A blank line names no block. -/
theorem recounted_blank (hblank : Text.Words raw []) (graph : Graph) :
    graph.Recounted [raw] graph := by
  refine ⟨rfl, rfl, rfl, fun _ node hnode => ⟨node.iterations, hnode, .inr ⟨?_, rfl⟩⟩⟩
  rw [List.forall_mem_singleton]
  rintro n ⟨location, line, count, more, hwords, -⟩
  rw [← Text.words_eq_iff, hblank.words_eq] at hwords
  cases hwords

/-! ## One line -/

theorem blockAtLine?_eq_some_iff (h : graph.IsBuilt) {line : Nat} {id : BlockId} :
    graph.blockAtLine? line = some id ↔
      ∃ block, graph.block? id = some block ∧ block.line = line := by
  constructor
  · intro hid
    obtain ⟨hlt, hline, -⟩ := Array.findIdx?_eq_some_iff_getElem.1 hid
    exact ⟨_, by rw [block?, Array.getElem?_eq_getElem hlt]; rfl, by simpa using hline⟩
  · rintro ⟨block, hblock, rfl⟩
    obtain ⟨node, hnode, rfl⟩ := Option.map_eq_some_iff.1 hblock
    obtain ⟨first, hfirst⟩ := Option.isSome_iff_exists.1 (isSome_blockAtLine? hnode)
    obtain ⟨hlt, hline, -⟩ := Array.findIdx?_eq_some_iff_getElem.1 hfirst
    rw [hfirst]
    -- what is found starts at the same line, so it is no other block
    by_contra hne
    refine h.line_ne (by rw [block?, Array.getElem?_eq_getElem hlt]; rfl) hblock
      (fun heq => hne (congrArg some heq)) ?_
    simpa using hline

/-- An entry sets the count of the block at its line, in the routines of its unit. -/
theorem getElem?_applyEntry (h : graph.IsBuilt) {id : BlockId} {node : Node}
    (hnode : graph.nodes[id]? = some node) : (graph.applyEntry entry).1.nodes[id]? =
      some (if entry.unit = graph.unit ∧ entry.line = node.block.line then
        { node with iterations := entry.count } else node) := by
  have hblock : graph.block? id = some node.block := by rw [block?, hnode]; rfl
  unfold applyEntry
  by_cases hunit : graph.unit = entry.unit
  · rw [if_pos hunit]
    cases hfirst : graph.blockAtLine? entry.line with
    | none =>
      -- no block begins on that line, so neither does this one
      have hline : entry.line ≠ node.block.line := fun hline => by
        rw [(blockAtLine?_eq_some_iff h).2 ⟨_, hblock, hline.symm⟩] at hfirst
        cases hfirst
      rw [if_neg fun hnamed => hline hnamed.2]
      exact hnode
    | some first =>
      obtain ⟨block, hblock', hline⟩ := (blockAtLine?_eq_some_iff h).1 hfirst
      show (graph.nodes.modify first _)[id]? = _
      rw [Array.getElem?_modify, hnode]
      by_cases hid : first = id
      · subst hid
        obtain rfl := Option.some.inj (hblock.symm.trans hblock')
        rw [if_pos rfl, if_pos ⟨hunit.symm, hline.symm⟩]
        rfl
      · -- two blocks begin on different lines
        have hne := h.line_ne hblock' hblock hid
        rw [if_neg hid, if_neg fun hnamed => hne (hline.trans hnamed.2)]
  · rw [if_neg hunit, if_neg fun hnamed => hunit hnamed.1.symm]
    exact hnode

/-- An entry is applied to a routine if it names one of its blocks. -/
theorem applyEntry_named (h : graph.IsBuilt) (hentry : entry.OnLine raw) :
    (graph.applyEntry entry).2 = true ↔ graph.NamedOn raw := by
  constructor
  · intro hnamed
    unfold applyEntry at hnamed
    split at hnamed
    next hunit =>
      cases hfirst : graph.blockAtLine? entry.line with
      | none => rw [hfirst] at hnamed; cases hnamed
      | some first =>
        obtain ⟨block, hblock, hline⟩ := (blockAtLine?_eq_some_iff h).1 hfirst
        exact ⟨first, block, entry.count, hblock, by rw [hunit, hline]; exact hentry⟩
    next => cases hnamed
  · rintro ⟨id, block, count, hblock, honLine⟩
    -- A line has one entry at most, so the one that names the block is this one.
    obtain rfl := hentry.unique honLine
    unfold applyEntry
    rw [if_pos rfl, (blockAtLine?_eq_some_iff h).2 ⟨block, hblock, rfl⟩]

/-- The line of an entry sets the count of the block that it names. -/
theorem recounted_applyEntry (h : graph.IsBuilt) (hentry : entry.OnLine raw) :
    graph.Recounted [raw] (graph.applyEntry entry).1 := by
  have hkept : (graph.applyEntry entry).1.unit = graph.unit ∧
      (graph.applyEntry entry).1.starts = graph.starts ∧
        (graph.applyEntry entry).1.size = graph.size := by
    unfold applyEntry
    split
    · split
      · exact ⟨rfl, rfl, Array.size_modify⟩
      · exact ⟨rfl, rfl, rfl⟩
    · exact ⟨rfl, rfl, rfl⟩
  refine ⟨hkept.1, hkept.2.1, hkept.2.2, fun id node hnode => ?_⟩
  -- the line is the last one that names the block, or names another one
  have hset := @getElem?_applyEntry graph entry h id node hnode
  split at hset
  next hnamed =>
    refine ⟨entry.count, hset, .inl (lastWith_cons.2 (.inr ⟨?_, by simp⟩))⟩
    rw [← hnamed.1, ← hnamed.2]
    exact hentry
  next hnamed =>
    refine ⟨node.iterations, hset, .inr ⟨?_, rfl⟩⟩
    rw [List.forall_mem_singleton]
    intro n honLine
    have hsame := hentry.unique honLine
    exact hnamed ⟨by rw [hsame], by rw [hsame]⟩

end Graph

/-! ## All lines -/

/-- The number of pairs of a line and a graph in which the line names a block. -/
def namings (lines : List (List Char)) (graphs : List Graph) : Nat :=
  (lines ×ˢ graphs).countP fun (raw, graph) => graph.NamedOn raw

/-- The pairs of lines and blocks are counted line by line. -/
theorem namings_cons (raw : List Char) (lines : List (List Char)) (graphs : List Graph) :
    namings (raw :: lines) graphs =
      graphs.countP (fun graph => graph.NamedOn raw) + namings lines graphs := by
  unfold namings
  rw [List.product_cons, List.countP_append, List.countP_map]
  rfl

theorem countP_namedOn_of_alike {graphs graphs' : List Graph}
    (h : List.Forall₂ Graph.Alike graphs graphs') (raw : List Char) :
    graphs'.countP (fun graph => graph.NamedOn raw) =
      graphs.countP fun graph => graph.NamedOn raw := by
  rw [List.countP_eq_length_filter, List.countP_eq_length_filter]
  refine (List.rel_filter (fun {graph graph'} halike => ?_) h).length_eq.symm
  simp only [decide_eq_true_eq]
  exact halike.namedOn_iff.symm

theorem namings_of_alike {graphs graphs' : List Graph}
    (h : List.Forall₂ Graph.Alike graphs graphs') (lines : List (List Char)) :
    namings lines graphs' = namings lines graphs := by
  induction lines with
  | nil => rfl
  | cons raw lines ih => rw [namings_cons, namings_cons, countP_namedOn_of_alike h, ih]

/-- One line and then the others recount the graphs by all of them. -/
theorem recounted_cons {graphs graphs' graphs'' : List Graph} {raw : List Char}
    {used : List (List Char)} (h : List.Forall₂ (Graph.Recounted [raw]) graphs graphs')
    (h' : List.Forall₂ (Graph.Recounted used) graphs' graphs'') :
    List.Forall₂ (Graph.Recounted (raw :: used)) graphs graphs'' := by
  induction h generalizing graphs'' with
  | nil =>
    cases h'
    exact .nil
  | cons hone _ ih =>
    cases h' with
    | cons hone' h' => exact .cons (hone.cons hone') (ih h')

theorem isBuilt_of_recounted {graphs graphs' : List Graph} {used : List (List Char)}
    (hbuilt : ∀ graph ∈ graphs, graph.IsBuilt)
    (h : List.Forall₂ (Graph.Recounted used) graphs graphs') :
    ∀ graph ∈ graphs', graph.IsBuilt := by
  induction h with
  | nil => exact hbuilt
  | cons hone _ ih =>
    obtain ⟨hgraph, hgraphs⟩ := List.forall_mem_cons.1 hbuilt
    exact List.forall_mem_cons.2 ⟨hgraph.alike hone.alike, ih hgraphs⟩

section Run

variable {graphs : List Graph} (hbuilt : ∀ graph ∈ graphs, graph.IsBuilt) {raw : List Char}
  (line n : Nat)

/-- A malformed line ends the profile. -/
theorem applyProfileFrom_malformed (hraw : ¬ ProfileEntry.WellFormed raw)
    (rest : List (List Char)) : (applyProfileFrom line n graphs (raw :: rest)).value =
      { graphs, applied := .error { line, text := String.ofList raw } } := by
  rw [ProfileEntry.wellFormed_iff, not_or] at hraw
  obtain ⟨hsome, hread⟩ := hraw
  obtain ⟨location, fields, hwords⟩ := List.exists_cons_of_ne_nil hsome
  have hnone : ProfileEntry.ofFields? location fields = none := by
    rw [ProfileEntry.entryOf?, hwords] at hread
    exact Option.not_isSome_iff_eq_none.1 hread
  rw [applyProfileFrom, hwords]
  dsimp only
  rw [hnone]
  rfl

include hbuilt in
/-- Any other line changes the graphs, and the rest is applied to what it made of them. -/
theorem applyProfileFrom_wellFormed (hraw : ProfileEntry.WellFormed raw) : ∃ graphs',
    List.Forall₂ (Graph.Recounted [raw]) graphs graphs' ∧ ∀ rest,
      (applyProfileFrom line n graphs (raw :: rest)).value =
        (applyProfileFrom (line + 1) (n + graphs.countP fun graph => graph.NamedOn raw) graphs'
          rest).value := by
  rcases hraw with hblank | ⟨entry, hentry⟩
  · -- a blank line names no block
    have hnone : graphs.countP (fun graph => graph.NamedOn raw) = 0 := by
      refine List.countP_eq_zero.2 fun graph _ => ?_
      rw [decide_eq_true_eq, Graph.namedOn_iff, ProfileEntry.entryOf?, hblank.words_eq]
      exact Bool.false_ne_true
    refine ⟨graphs, List.forall₂_same.2 fun graph _ => Graph.recounted_blank hblank graph,
      fun rest => ?_⟩
    rw [applyProfileFrom, hblank.words_eq, hnone]
    rfl
  · refine ⟨(graphs.map (·.applyEntry entry)).map (·.1), ?_, fun rest => ?_⟩
    · rw [List.map_map, List.forall₂_map_right_iff]
      exact List.forall₂_same.2 fun graph hgraph =>
        Graph.recounted_applyEntry (hbuilt graph hgraph) hentry
    · have hnamed : (graphs.map (·.applyEntry entry)).countP (·.2) =
          graphs.countP fun graph => graph.NamedOn raw := by
        rw [List.countP_map]
        refine List.countP_congr fun graph hgraph => ?_
        rw [decide_eq_true_eq]
        exact Graph.applyEntry_named (hbuilt graph hgraph) hentry
      have hread := ProfileEntry.entryOf?_eq_some_iff.2 hentry
      obtain ⟨location, -, count, more, hwords, -⟩ := hentry
      rw [ProfileEntry.entryOf?, hwords.words_eq] at hread
      rw [applyProfileFrom, hwords.words_eq, ← hnamed]
      dsimp only at hread ⊢
      rw [hread]
      rfl

include hbuilt

/-- Without a malformed line, all lines count. -/
theorem applyProfileFrom_all {lines : List (List Char)}
    (hlines : ∀ raw ∈ lines, ProfileEntry.WellFormed raw) :
    List.Forall₂ (Graph.Recounted lines) graphs
        (applyProfileFrom line n graphs lines).value.graphs ∧
      (applyProfileFrom line n graphs lines).value.applied = .ok (n + namings lines graphs) := by
  induction lines generalizing line n graphs with
  | nil => exact ⟨List.forall₂_same.2 fun graph _ => graph.recounted_nil, rfl⟩
  | cons raw lines ih =>
    obtain ⟨hraw, hlines⟩ := List.forall_mem_cons.1 hlines
    obtain ⟨graphs', hfirst, hvalue⟩ := applyProfileFrom_wellFormed hbuilt line n hraw
    -- The graphs stay built, so the rest of the lines finds the same blocks.
    obtain ⟨hgraphs, happlied⟩ :=
      ih (isBuilt_of_recounted hbuilt hfirst) (line + 1) (n + _) hlines
    rw [hvalue]
    refine ⟨recounted_cons hfirst hgraphs, ?_⟩
    rw [happlied, namings_cons, namings_of_alike (hfirst.imp fun _ _ h => h.alike), Nat.add_assoc]

/-- The lines before the first malformed one count. -/
theorem applyProfileFrom_first {lines before : List (List Char)}
    (hfirst : FirstWithout ProfileEntry.WellFormed lines before raw) :
    List.Forall₂ (Graph.Recounted before) graphs
        (applyProfileFrom line n graphs lines).value.graphs ∧
      (applyProfileFrom line n graphs lines).value.applied =
        .error { line := line + before.length, text := String.ofList raw } := by
  induction lines generalizing line n graphs before with
  | nil => exact absurd hfirst not_firstWithout_nil
  | cons first lines ih =>
    by_cases hwell : ProfileEntry.WellFormed first
    · -- a well-formed line counts, and the first malformed one is among the rest
      obtain ⟨init, rfl, hinit⟩ := (firstWithout_cons_of hwell).1 hfirst
      obtain ⟨graphs', hone, hvalue⟩ := applyProfileFrom_wellFormed hbuilt line n hwell
      obtain ⟨hgraphs, happlied⟩ :=
        ih (isBuilt_of_recounted hbuilt hone) (line + 1) (n + _) hinit
      rw [hvalue]
      refine ⟨recounted_cons hone hgraphs, ?_⟩
      rw [happlied, List.length_cons, Nat.add_right_comm, Nat.add_assoc]
    · obtain ⟨rfl, rfl⟩ := (firstWithout_cons_of_not hwell).1 hfirst
      rw [applyProfileFrom_malformed line n hwell]
      exact ⟨List.forall₂_same.2 fun graph _ => graph.recounted_nil, rfl⟩

end Run

/-- A profile fails exactly if it has a malformed line, and the error names the first one. The
counts are then those of the lines before it, else those of all lines; nothing else in the graphs
changes. Without a malformed line, the result tells how often a line names a block of a graph. -/
theorem applyProfile_outcome {graphs : List Graph} (hbuilt : ∀ graph ∈ graphs, graph.IsBuilt)
    (text : String) :
    (∀ e, (applyProfile text graphs).value.applied = .error e ↔ ∃ before raw,
      FirstWithout ProfileEntry.WellFormed (Text.lines text.toList) before raw ∧
        e = { line := before.length + 1, text := String.ofList raw }) ∧
    (∀ before raw, FirstWithout ProfileEntry.WellFormed (Text.lines text.toList) before raw →
      List.Forall₂ (Graph.Recounted before) graphs (applyProfile text graphs).value.graphs) ∧
    ((∀ raw ∈ Text.lines text.toList, ProfileEntry.WellFormed raw) →
      List.Forall₂ (Graph.Recounted (Text.lines text.toList)) graphs
        (applyProfile text graphs).value.graphs ∧
      (applyProfile text graphs).value.applied =
        .ok (namings (Text.lines text.toList) graphs)) := by
  have hall := @applyProfileFrom_all graphs hbuilt 1 0 (Text.lines text.toList)
  rw [Nat.zero_add] at hall
  refine ⟨fun e => ⟨fun herror => ?_, ?_⟩, fun before raw hfirst => ?_, hall⟩
  · have hsome : ¬ ∀ raw ∈ Text.lines text.toList, ProfileEntry.WellFormed raw := fun hlines => by
      have hok := (hall hlines).2.symm.trans herror
      cases hok
    obtain ⟨before, raw, hfirst⟩ := exists_firstWithout hsome
    have hvalue := (applyProfileFrom_first hbuilt 1 0 hfirst).2
    refine ⟨before, raw, hfirst, ?_⟩
    rw [Nat.add_comm]
    exact Except.error.inj (herror.symm.trans hvalue)
  · rintro ⟨before, raw, hfirst, rfl⟩
    rw [Nat.add_comm]
    exact (applyProfileFrom_first hbuilt 1 0 hfirst).2
  · exact (applyProfileFrom_first hbuilt 1 0 hfirst).1

/-- A build makes routines of the units. -/
theorem isBuilt_of_mem_builtGraphs {units : List SourceUnit} {graph : Graph}
    (hread : ∀ unit ∈ units, unit.Parsed) (hgraph : graph ∈ Program.builtGraphs units) :
    graph.IsBuilt := by
  obtain ⟨unit, hunit, hroutine⟩ := List.mem_flatMap.1 hgraph
  obtain ⟨built, hbuilt, hroutines⟩ :=
    exists_routines (hread unit hunit).fresh (routineLabels units)
  rw [hroutines] at hroutine
  obtain ⟨routine, hmem, rfl⟩ := List.mem_map.1 hroutine
  exact ⟨unit, _, built, hread unit hunit, hbuilt, routine, hmem, routine.alike_analyzeLoops⟩

/-- A branch around one instruction, in a unit with a separator in its name. -/
def oneArm : SourceUnit :=
  (SourceUnit.parse "a_b.s"
    "\t.type\tf, %function\nf:\n\tbeq\t.L2\n\tmovs\tr0, #1\n.L2:\n\tbx\tlr\n").value

def armGraphs : List Graph := Program.builtGraphs [oneArm]

/-- Two lines name one block, with either separator; one is blank, and one names an unknown unit. -/
def armCounts : String := "a_b.s:3 4\n\na_b.s_4 5 cycles\nother.s:3 7\na_b.s_3 9\n"

/-- Three lines name a block; a malformed line at the end takes nothing back. -/
theorem applyProfile_outcome_oneArm :
    (∀ graph ∈ armGraphs, graph.IsBuilt) ∧
    (∀ raw ∈ Text.lines armCounts.toList, ProfileEntry.WellFormed raw) ∧
    List.Forall₂ (Graph.Recounted (Text.lines armCounts.toList)) armGraphs
      (applyProfile armCounts armGraphs).value.graphs ∧
    (applyProfile armCounts armGraphs).value.applied = .ok 3 ∧
    FirstWithout ProfileEntry.WellFormed (Text.lines (armCounts ++ "a_b.s:x 1\n").toList)
      (Text.lines armCounts.toList) "a_b.s:x 1".toList ∧
    List.Forall₂ (Graph.Recounted (Text.lines armCounts.toList)) armGraphs
      (applyProfile (armCounts ++ "a_b.s:x 1\n") armGraphs).value.graphs ∧
    (applyProfile (armCounts ++ "a_b.s:x 1\n") armGraphs).value.applied =
      .error { line := 6, text := "a_b.s:x 1" } := by
  have hread : ∀ unit ∈ [oneArm], unit.Parsed := by
    intro unit hunit
    rw [List.mem_singleton.1 hunit]
    exact .parse _ _
  have hbuilt : ∀ graph ∈ armGraphs, graph.IsBuilt := fun graph =>
    isBuilt_of_mem_builtGraphs hread
  have hlines : ∀ raw ∈ Text.lines armCounts.toList, ProfileEntry.WellFormed raw := by
    decide +kernel
  have hthree : namings (Text.lines armCounts.toList) armGraphs = 3 := by
    decide +kernel
  have hfirst : FirstWithout ProfileEntry.WellFormed
      (Text.lines (armCounts ++ "a_b.s:x 1\n").toList) (Text.lines armCounts.toList)
        "a_b.s:x 1".toList := by
    refine ⟨⟨[], by decide +kernel⟩, hlines, by decide +kernel⟩
  have hall := (applyProfile_outcome hbuilt armCounts).2.2 hlines
  have hstopped := applyProfile_outcome hbuilt (armCounts ++ "a_b.s:x 1\n")
  have hlength : (Text.lines armCounts.toList).length = 5 := by decide +kernel
  refine ⟨hbuilt, hlines, hall.1, hthree ▸ hall.2, hfirst, hstopped.2.1 _ _ hfirst, ?_⟩
  exact (hstopped.1 _).2 ⟨_, _, hfirst, by rw [hlength, String.ofList_toList]⟩

end RamOverlay
