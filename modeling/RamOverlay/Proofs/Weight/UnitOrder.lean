import RamOverlay.Proofs.Weight.Arrangement
import RamOverlay.Proofs.Weight.UnitRoutines

/-!
# Estimates and the order of the units

* **`Tracks.lineCounts_eq`**: the counts of the blocks of a unit, told by its routines.
* **`Program.lineCounts_of_perm`**: the counts do not depend on the order of the units if no chain
  of calls is cut off, or if control enters the program in one unit only.
* **`Program.lineCounts_ne_cutChain`**: otherwise they may. A visit passes on the raised count of a
  block, also where the visit that raised it was cut off, so that it matters which one comes first.
-/

namespace RamOverlay

/-- The lines at which the blocks of a unit start, with the counts of the blocks. -/
def Program.lineCounts (program : Program) (unit : String) : List (Nat × Nat) :=
  (program.graphs.filter (·.unit == unit)).flatMap fun graph =>
    graph.nodes.toList.map fun node => (node.block.line, node.iterations)

/-! ## The routines of a program -/

section Units

variable {units units' : List SourceUnit} {labels : RoutineLabels}

/-- The routines of the units, in their order. -/
def unitRoutines (units : List SourceUnit) (labels : RoutineLabels) : List Routine :=
  units.flatMap fun unit => (unit.routinesIn labels).zipIdx

theorem fst_mem_of_mem_zipIdx {graphs : List Graph} {routine : Routine}
    (h : routine ∈ graphs.zipIdx) : routine.1 ∈ graphs := by
  rw [← List.zipIdx_map_fst 0 graphs]
  exact List.mem_map_of_mem h

variable (hfresh : ∀ unit ∈ units, unit.Fresh) (hnames : (units.map (·.name)).Nodup)
include hfresh hnames

omit hfresh in
/-- Of two units, at most one contributes what belongs to a unit name. -/
theorem pairwise_of_unit {β : Type} (name : String) {f : SourceUnit → List β}
    (hf : ∀ unit ∈ units, f unit ≠ [] → unit.name = name) :
    units.Pairwise fun u v => f u = [] ∨ f v = [] := by
  refine (List.pairwise_map.1 hnames).imp_of_mem fun {u v} hu hv hne => ?_
  by_contra hnot
  obtain ⟨hsome, hsome'⟩ := not_or.1 hnot
  exact hne ((hf u hu hsome).trans (hf v hv hsome').symm)

theorem arranged_unitRoutines (labels : RoutineLabels) :
    Arranged (units.flatMap (·.routinesIn labels)) (unitRoutines units labels) where
  graphs := by
    unfold unitRoutines
    simp only [List.map_flatMap, List.zipIdx_map_fst]
  nodup := by
    refine List.nodup_flatMap.2 ⟨fun unit _ => ?_, ?_⟩
    · refine List.Nodup.of_map Prod.snd ?_
      rw [List.zipIdx_map_snd]
      exact List.nodup_range'
    · refine (List.pairwise_map.1 hnames).imp_of_mem fun {u v} hu hv hne routine h h' => hne ?_
      rw [← unit_of_mem_routinesIn (hfresh u hu) (fst_mem_of_mem_zipIdx h),
        ← unit_of_mem_routinesIn (hfresh v hv) (fst_mem_of_mem_zipIdx h')]

omit hnames in
/-- The routines of permuted units are the same ones in another order. -/
theorem same_unitRoutines (labels : RoutineLabels) (hperm : units.Perm units')
    (hlabels : units.Pairwise fun u v =>
      ∀ label ∈ u.definedLabels, label ∉ v.definedLabels) :
    Arranged.Same (unitRoutines units labels) (unitRoutines units' labels) where
  perm := hperm.flatMap_right _
  entrances label := by
    -- a label has an entrance in a unit only if the unit defines it
    have hdefines : ∀ unit ∈ units,
        (unit.routinesIn labels).zipIdx.flatMap (Routine.labelled label) ≠ [] →
          label ∈ unit.definedLabels := by
      intro unit hunit hne
      obtain ⟨place, hplace⟩ := List.exists_mem_of_ne_nil _ hne
      obtain ⟨routine, hroutine, hplace⟩ := List.mem_flatMap.1 hplace
      obtain ⟨⟨id, node⟩, hentry, _⟩ := List.mem_map.1 hplace
      obtain ⟨hentry, hlabel⟩ := List.mem_filter.1 hentry
      exact mem_definedLabels_of_mem_routinesIn (hfresh unit hunit) (fst_mem_of_mem_zipIdx hroutine)
        (by rw [Graph.block?, Graph.mem_entries.1 hentry, Option.map_some]) (beq_iff_eq.1 hlabel)
    unfold Routine.entrance? unitRoutines
    rw [List.flatMap_assoc, List.flatMap_assoc, flatMap_eq_of_perm hperm]
    refine hlabels.imp_of_mem fun {u v} hu hv hdisjoint => ?_
    by_contra hnot
    obtain ⟨hsome, hsome'⟩ := not_or.1 hnot
    exact hdisjoint label (hdefines u hu hsome) (hdefines v hv hsome')

/-- What the routines of one unit contribute does not depend on the order of the units. -/
theorem filter_unitRoutines (hperm : units.Perm units') (name : String) {p : Routine → Bool}
    (hp : ∀ routine ∈ unitRoutines units labels, p routine = true → routine.1.unit = name) :
    (unitRoutines units' labels).filter p = (unitRoutines units labels).filter p := by
  unfold unitRoutines
  rw [List.filter_flatMap, List.filter_flatMap]
  refine (flatMap_eq_of_perm hperm (pairwise_of_unit hnames name ?_)).symm
  intro unit hunit hne
  obtain ⟨routine, hroutine⟩ := List.exists_mem_of_ne_nil _ hne
  obtain ⟨hroutine, hpr⟩ := List.mem_filter.1 hroutine
  rw [← unit_of_mem_routinesIn (hfresh unit hunit) (fst_mem_of_mem_zipIdx hroutine)]
  exact hp routine (List.mem_flatMap.2 ⟨unit, hunit, hroutine⟩) hpr

end Units

/-! ## The counts of a unit -/

section Counts

variable {graphs now : List Graph} {counts : Counts} {routines : List Routine}

theorem Tracks.map_lines {routine : Nat} {graph current : Graph} (h : Tracks graphs counts now)
    (hgraph : graphs[routine]? = some graph) (hcurrent : now[routine]? = some current) :
    current.nodes.toList.map (fun node => (node.block.line, node.iterations)) =
      graph.entries.map fun (id, node) => (node.block.line, counts ⟨routine, id⟩) := by
  refine List.ext_getElem? fun id => ?_
  have hblock := (h.alike routine graph current hgraph hcurrent).block id
  unfold Graph.block? at hblock
  unfold Graph.entries
  rw [List.getElem?_map, List.getElem?_map, List.getElem?_map, List.getElem?_zipIdx,
    Array.getElem?_toList, Array.getElem?_toList, Nat.zero_add]
  -- place by place: the block is the same, and its count is the tracked one
  cases hnode : current.nodes[id]? with
  | none =>
    rw [hnode, Option.map_none] at hblock
    rw [Option.map_eq_none_iff.1 hblock.symm]
    rfl
  | some node =>
    rw [hnode, Option.map_some] at hblock
    obtain ⟨original, horiginal, heq⟩ := Option.map_eq_some_iff.1 hblock.symm
    have hcount := h.count routine current id node hcurrent hnode
    rw [horiginal, Option.map_some, hcount, ← heq]
    rfl

/-- The blocks of the graphs keep their lines. -/
theorem Tracks.map_lineCounts (h : Tracks graphs counts now) :
    (now.map fun current => (current.unit, current.nodes.toList.map fun node =>
        (node.block.line, node.iterations))) =
      graphs.zipIdx.map fun (graph, routine) => (graph.unit, graph.entries.map fun (id, node) =>
        (node.block.line, counts ⟨routine, id⟩)) := by
  -- Routine by routine: there is none on either side, or the two are alike.
  refine List.ext_getElem? fun routine => ?_
  rw [List.getElem?_map, List.getElem?_map, List.getElem?_zipIdx]
  cases hgraph : graphs[routine]? with
  | none =>
    have hnone : now[routine]? = none := by
      rw [List.getElem?_eq_none_iff] at hgraph ⊢
      exact h.length ▸ hgraph
    rw [hnone]
    rfl
  | some graph =>
    obtain ⟨current, hcurrent⟩ := h.exists_current hgraph
    rw [hcurrent, Option.map_some, Option.map_some, Option.map_some, Nat.zero_add,
      (h.alike routine graph current hgraph hcurrent).unit, h.map_lines hgraph hcurrent]

/-- The counts of the blocks of a unit, told by its routines. -/
theorem Tracks.lineCounts_eq (h : Tracks graphs counts now) (harranged : Arranged graphs routines)
    {program : Program} (hnow : program.graphs = now) (unit : String) :
    program.lineCounts unit = (routines.filter (·.1.unit == unit)).flatMap fun routine =>
      routine.1.entries.map fun (id, node) =>
        (node.block.line, counts ⟨routines.idxOf routine, id⟩) := by
  have hmap := h.map_lineCounts
  rw [harranged.zipIdx_eq, List.map_map] at hmap
  have hfilter := congrArg (fun entries : List (String × List (Nat × Nat)) =>
    (entries.filter (·.1 == unit)).flatMap (·.2)) hmap
  simp only [List.filter_map, List.flatMap_map] at hfilter
  unfold Program.lineCounts
  rw [hnow]
  exact hfilter

end Counts

/-! ## The order of the units -/

namespace Program

/-- No chain of calls from a routine that is never called is cut off. -/
def FollowsAll (program : Program) : Prop :=
  ∀ root ∈ program.calls.roots program.graphs.length, ∀ blocks last,
    program.calls.Chain root blocks last → blocks.length ≤ program.config.maxCallDepth

/-- The routines that are never called are all in one unit. -/
def EntersOneUnit (program : Program) : Prop :=
  ∃ unit, ∀ root ∈ program.calls.roots program.graphs.length, ∀ graph,
    program.graphs[root]? = some graph → graph.unit = unit

section Order

variable {program : Program} {units' : List SourceUnit}
  (hfresh : ∀ unit ∈ program.units, unit.Fresh)
  (hnames : (program.units.map (·.name)).Nodup)
  (hlabels : program.units.Pairwise fun u v =>
    ∀ label ∈ u.definedLabels, label ∉ v.definedLabels)
  (hperm : program.units.Perm units')
include hfresh hnames hlabels hperm

open Classical in
/-- If the roots are all in one unit, they keep their order. -/
theorem roots_of_entersOneUnit {labels : RoutineLabels} {graphs : List Graph} {unit : String}
    (hgraphs : graphs = program.units.flatMap (·.routinesIn labels))
    (hunit : ∀ root ∈ (CallGraph.ofGraphs graphs).roots graphs.length, ∀ graph,
      graphs[root]? = some graph → graph.unit = unit)
    {graphs' : List Graph} (h' : Arranged graphs' (unitRoutines units' labels)) :
    (CallGraph.ofGraphs graphs').roots graphs'.length =
      ((CallGraph.ofGraphs graphs).roots graphs.length).map
        (Arranged.renumber (unitRoutines program.units labels) (unitRoutines units' labels)) := by
  have h := arranged_unitRoutines hfresh hnames labels
  have hsame := same_unitRoutines hfresh labels hperm hlabels
  rw [← hgraphs] at h
  rw [h'.roots_eq, h.roots_eq, List.map_map]
  simp only [hsame.isCalled_iff]
  -- the routines of one unit stand together in both orders, in the order of the unit
  rw [filter_unitRoutines hfresh hnames hperm unit]
  · exact List.map_congr_left fun routine hroutine =>
      (Arranged.renumber_idxOf (List.mem_filter.1 hroutine).1).symm
  · intro routine hroutine hroot
    refine hunit _ ?_ _ (h.getElem?_idxOf hroutine)
    rw [h.roots_eq]
    exact List.mem_map_of_mem (List.mem_filter.2 ⟨hroutine, hroot⟩)

/-- The counts of a program do not depend on the order of its units if no chain of calls is cut off,
or if control enters the program in one unit only. -/
theorem lineCounts_of_perm (hsome : program.units ≠ []) :
    ∃ built built', program.build.run.value = .ok built ∧
      ({ program with units := units' } : Program).build.run.value = .ok built' ∧
      (built.FollowsAll ∨ built.EntersOneUnit → ∀ unit,
        built'.estimate.value.lineCounts unit = built.estimate.value.lineCounts unit) := by
  have hsome' : units' ≠ [] := fun hnil => hsome (List.perm_nil.1 (hnil ▸ hperm))
  have hfresh' : ∀ unit ∈ units', unit.Fresh := fun unit hunit =>
    hfresh unit (hperm.mem_iff.2 hunit)
  have hnames' : (units'.map (·.name)).Nodup := (hperm.map _).nodup_iff.1 hnames
  refine ⟨_, _, value_build _ hsome hfresh, value_build _ hsome' hfresh', fun hcase unit => ?_⟩
  have hbuilt :
      builtGraphs units' = units'.flatMap (·.routinesIn (routineLabels program.units)) := by
    unfold builtGraphs
    rw [routineLabels_eq_of_perm hperm]
  have h := arranged_unitRoutines hfresh hnames (routineLabels program.units)
  have h' := arranged_unitRoutines hfresh' hnames' (routineLabels program.units)
  have hsame := same_unitRoutines hfresh (routineLabels program.units) hperm hlabels
  rw [← hbuilt] at h'
  have hgraphs : builtGraphs program.units =
    program.units.flatMap (·.routinesIn (routineLabels program.units)) := rfl
  rw [← hgraphs] at h
  generalize builtGraphs program.units = graphs at h hgraphs hcase ⊢
  generalize builtGraphs units' = graphs' at h' ⊢
  have hroots := hcase.imp_right fun ⟨_, hname⟩ =>
    roots_of_entersOneUnit hfresh hnames hlabels hperm hgraphs hname h'
  have hagree := h.agree_visitAll h' hsame program.config.loopEstimate hroots
  have htracks := CallGraph.tracks_estimate (CallGraph.ofGraphs graphs) program.config.assumptions
    graphs
  have htracks' := CallGraph.tracks_estimate (CallGraph.ofGraphs graphs') program.config.assumptions
    graphs'
  rw [htracks'.lineCounts_eq h' rfl unit, htracks.lineCounts_eq h rfl unit,
    filter_unitRoutines hfresh hnames hperm unit fun _ _ heq => beq_iff_eq.1 heq]
  refine List.flatMap_congr fun routine hroutine => ?_
  have hmem := (List.mem_filter.1 hroutine).1
  refine List.map_congr_left fun entry _ => ?_
  have heq := hagree _ (h.length_eq ▸ List.idxOf_lt_length_of_mem hmem) entry.1
  rw [Arranged.renumber_idxOf hmem] at heq
  exact congrArg (Prod.mk entry.2.block.line) heq

end Order

/-- A routine that calls one of another unit. -/
def quickCaller : SourceUnit :=
  (SourceUnit.parse "a.s" "\t.type\tq, %function\nq:\n\tbl\ts\n\tbx\tlr\n").value

/-- The unit of the routine that is called. -/
def quickCallee : SourceUnit := (SourceUnit.parse "b.s" "s:\n\tbx\tlr\n").value

theorem fresh_quick : ∀ unit ∈ [quickCaller, quickCallee], unit.Fresh := by
  intro unit hunit
  rcases List.mem_pair.1 hunit with rfl | rfl
  · exact SourceUnit.fresh_parse _ _
  · exact SourceUnit.fresh_parse _ _

/-- The theorem applied to a caller and its callee, either first. -/
theorem lineCounts_of_perm_quick :
    (∀ unit ∈ [quickCaller, quickCallee], unit.Fresh) ∧
      ([quickCaller, quickCallee].map (·.name)).Nodup ∧
      ([quickCaller, quickCallee].Pairwise fun u v =>
        ∀ label ∈ u.definedLabels, label ∉ v.definedLabels) ∧
      [quickCaller, quickCallee].Perm [quickCallee, quickCaller] ∧
      ∃ built built',
        ({ units := [quickCaller, quickCallee] } : Program).build.run.value = .ok built ∧
        ({ units := [quickCallee, quickCaller] } : Program).build.run.value = .ok built' ∧
        built.FollowsAll ∧ ∀ unit,
          built'.estimate.value.lineCounts unit = built.estimate.value.lineCounts unit := by
  have hnames : ([quickCaller, quickCallee].map (·.name)).Nodup := by decide
  have hlabels : [quickCaller, quickCallee].Pairwise fun u v =>
      ∀ label ∈ u.definedLabels, label ∉ v.definedLabels := by
    decide +kernel
  have hperm : [quickCaller, quickCallee].Perm [quickCallee, quickCaller] := .swap _ _ _
  have hfresh : ∀ unit ∈ ({ units := [quickCaller, quickCallee] } : Program).units, unit.Fresh :=
    fresh_quick
  obtain ⟨built, built', hbuilt, hbuilt', heq⟩ :=
    lineCounts_of_perm hfresh hnames hlabels hperm (List.cons_ne_nil _ _)
  have hcalls : ((({ units := [quickCaller, quickCallee] } : Program).build.run.value.toOption.any
      fun built => built.config.maxCallDepth == 5 && built.calls.edges.all fun edge =>
        decide (1 - edge.callee.routine < 1 - edge.caller.routine))) = true := by
    decide +kernel
  rw [hbuilt, Except.toOption, Option.any_some, Bool.and_eq_true, beq_iff_eq] at hcalls
  simp only [List.all_eq_true, decide_eq_true_eq] at hcalls
  have hfollows : built.FollowsAll := by
    intro root _ blocks last hchain
    have hle := hchain.length_le (fun routine => 1 - routine) hcalls.2
    rw [hcalls.1]
    omega
  exact ⟨fresh_quick, hnames, hlabels, hperm, built, built', hbuilt, hbuilt', hfollows,
    heq (.inl hfollows)⟩

/-- A loop from which three calls lead, one after the other, to a last routine. -/
def slowCaller : SourceUnit :=
  (SourceUnit.parse "b.s"
    ("\t.type\tp, %function\np:\n.L2:\n\tbl\tm\n\tsubs\tr4, r4, #1\n\tbne\t.L2\n\tbx\tlr\n"
      ++ "m:\n\tbl\ts\n\tbx\tlr\ns:\n\tbl\tl\n\tbx\tlr\nl:\n\tbx\tlr\n")).value

/-- If chains of three calls are cut off, the last routine has the count of the one call that leads
to it, or that of the loop, as the units are ordered. -/
theorem lineCounts_ne_cutChain :
    (∀ unit ∈ [quickCaller, slowCaller], unit.Fresh) ∧
      ([quickCaller, slowCaller].map (·.name)).Nodup ∧
      ([quickCaller, slowCaller].Pairwise fun u v =>
        ∀ label ∈ u.definedLabels, label ∉ v.definedLabels) ∧
      [quickCaller, slowCaller].Perm [slowCaller, quickCaller] ∧
      ∃ built built' : Program,
        ({ config := { maxCallDepth := 2 }, units := [quickCaller, slowCaller] } :
          Program).build.run.value = .ok built ∧
        ({ config := { maxCallDepth := 2 }, units := [slowCaller, quickCaller] } :
          Program).build.run.value = .ok built' ∧
        (13, 1) ∈ built.estimate.value.lineCounts "b.s" ∧
        (13, 1100) ∈ built'.estimate.value.lineCounts "b.s" ∧
        built'.estimate.value.lineCounts "b.s" ≠ built.estimate.value.lineCounts "b.s" := by
  have hfresh : ∀ unit ∈ [quickCaller, slowCaller], unit.Fresh := by
    intro unit hunit
    rcases List.mem_pair.1 hunit with rfl | rfl
    · exact SourceUnit.fresh_parse _ _
    · exact SourceUnit.fresh_parse _ _
  have hperm : [quickCaller, slowCaller].Perm [slowCaller, quickCaller] := .swap _ _ _
  have hlabels : [quickCaller, slowCaller].Pairwise fun u v =>
      ∀ label ∈ u.definedLabels, label ∉ v.definedLabels := by
    decide +kernel
  have hcounts : [[quickCaller, slowCaller], [slowCaller, quickCaller]].map (fun units =>
      ({ config := { maxCallDepth := 2 }, units } : Program).build.run.value.toOption.map
        fun built => built.estimate.value.lineCounts "b.s") =
      [1, 1100].map fun last => some [(1, 1), (2, 1100), (4, 10), (6, 1), (7, 1100), (9, 1100),
        (10, 1100), (12, 1100), (13, last)] := by
    decide +kernel
  have hbuilt := value_build
    { config := { maxCallDepth := 2 }, units := [quickCaller, slowCaller] }
    (List.cons_ne_nil _ _) hfresh
  have hbuilt' := value_build
    { config := { maxCallDepth := 2 }, units := [slowCaller, quickCaller] }
    (List.cons_ne_nil _ _) fun unit hunit => hfresh unit (hperm.mem_iff.2 hunit)
  simp only [List.map_cons, List.map_nil, hbuilt, hbuilt', Except.toOption, Option.map_some,
    List.cons.injEq, Option.some_inj, and_true] at hcounts
  refine ⟨hfresh, by decide, hlabels, hperm, _, _, hbuilt, hbuilt', ?_⟩
  rw [hcounts.1, hcounts.2]
  decide

end Program

end RamOverlay
