import Mathlib.Data.String.Basic
import RamOverlay.Program
import RamOverlay.Proofs.Code.Corrected
import RamOverlay.Proofs.Code.Partition
import RamOverlay.Proofs.Loop.Reanalysis

/-!
# The graphs that a build makes

A build makes the graphs of the units one after the other, each from its unit and the routine labels
of all units.

* **`routineLabels_eq_of_perm`**: the routine labels do not depend on the order of the units.
* **`value_build`**: a build of fresh units always comes to an end, with their routines in the order
  of the units.
* **`unit_of_mem_routinesIn`, `mem_definedLabels_of_mem_routinesIn`**: the routines of a unit carry
  its name, and labels that it defines.
-/

namespace RamOverlay

/-! ## Routine labels -/

theorem Ascending.ofList_eq_of_mem_iff {labels labels' : List String}
    (h : ∀ label, label ∈ labels ↔ label ∈ labels') :
    Ascending.ofList labels = Ascending.ofList labels' := by
  have hascending : ∀ labels : List String, (Ascending.ofList labels).Pairwise (· < ·) :=
    Ascending.pairwise_ofList (fun _ _ _ => lt_trans)
      fun _ _ hnot hne => lt_of_le_of_ne (not_lt.1 hnot) hne.symm
  refine List.Perm.eq_of_pairwise (fun a b _ _ hab hba => absurd hab (lt_asymm hba))
    (hascending labels) (hascending labels') ?_
  refine (List.perm_ext_iff_of_nodup ((hascending labels).imp ne_of_lt)
    ((hascending labels').imp ne_of_lt)).2 fun label => ?_
  rw [Ascending.mem_ofList, Ascending.mem_ofList, h]

theorem routineLabels_eq_of_perm {units units' : List SourceUnit} (h : units.Perm units') :
    routineLabels units' = routineLabels units :=
  Ascending.ofList_eq_of_mem_iff fun _ => (h.flatMap_right _).mem_iff.symm

/-! ## The routines of a unit -/

/-- The routines of a unit, with their loops. -/
def SourceUnit.routinesIn (unit : SourceUnit) (labels : RoutineLabels) : List Graph :=
  match (unit.routines labels).run.value with
  | .ok graphs => graphs.map (·.analyzeLoops.value)
  | .error _ => []

/-- The labels that the unit defines, in order. -/
def SourceUnit.definedLabels (unit : SourceUnit) : List String :=
  (unit.instructions.filter (·.isLabel)).filterMap (·.label?)

/-- Suppressing calls does not change the unit. -/
theorem Graph.unit_suppressAll {graph graph' : Graph} {calls : List LocalCall}
    (h : graph.suppressAll calls = .ok graph') : graph'.unit = graph.unit := by
  induction calls generalizing graph with
  | nil =>
    cases h
    rfl
  | cons call calls ih =>
    unfold suppressAll at h
    split at h
    next => exact ih h
    next block _ =>
      -- A call that cannot be suppressed stops the run, against what is assumed.
      cases hblock : suppressed call block with
      | error e =>
        rw [hblock] at h
        cases h
      | ok block =>
        rw [hblock] at h
        exact @ih (graph.modify call.block fun node => { node with block }) h

section Routines

variable {unit : SourceUnit} {labels : RoutineLabels} {graph : Graph} (hfresh : unit.Fresh)
include hfresh

/-- A unit that was just parsed has routines. -/
theorem exists_routines (labels : RoutineLabels) :
    ∃ graphs, (unit.routines labels).run.value = .ok graphs ∧
      unit.routinesIn labels = graphs.map (·.analyzeLoops.value) := by
  obtain ⟨corrected, hcorrected, _⟩ := exists_corrected hfresh labels
  have hvalue := value_routines hfresh hcorrected
  refine ⟨_, hvalue, ?_⟩
  unfold SourceUnit.routinesIn
  rw [hvalue]

/-- A routine of a unit is a part of its corrected graph. -/
theorem exists_split_of_mem_routinesIn (hgraph : graph ∈ unit.routinesIn labels) :
    ∃ (corrected part : Graph) (ids : List BlockId), corrected.unit = unit.name ∧
      corrected.IsCorrected unit labels ∧ corrected.IsSplit labels ids part ∧
        part.Alike graph := by
  obtain ⟨corrected, hvalue, hcorrected⟩ := exists_corrected hfresh labels
  unfold SourceUnit.routinesIn at hgraph
  rw [value_routines hfresh hvalue] at hgraph
  obtain ⟨part, hpart, rfl⟩ := List.mem_map.1 hgraph
  obtain ⟨number, rfl⟩ := Graph.eq_routine_of_mem_partition hpart
  exact ⟨corrected, _, _, Graph.unit_suppressAll hvalue, hcorrected,
    Graph.isSplit_routine (fun {u v} => hcorrected.lt_size u v) labels number,
    Graph.alike_analyzeLoops _⟩

theorem unit_of_mem_routinesIn (hgraph : graph ∈ unit.routinesIn labels) :
    graph.unit = unit.name := by
  obtain ⟨corrected, part, ids, hunit, _, hsplit, halike⟩ :=
    exists_split_of_mem_routinesIn hfresh hgraph
  rw [halike.unit, hsplit.unit, hunit]

/-- A block of a routine has the entries of a corrected block of the unit. -/
theorem exists_cut_of_mem_routinesIn {id : BlockId} {block : Block}
    (hgraph : graph ∈ unit.routinesIn labels) (hblock : graph.block? id = some block) :
    ∃ u cut original, (cutBlocks unit labels)[u]? = some cut ∧
      Corrected unit labels u cut original ∧ block.instructions = original.instructions := by
  obtain ⟨corrected, part, ids, _, hcorrected, hsplit, halike⟩ :=
    exists_split_of_mem_routinesIn hfresh hgraph
  rw [halike.block] at hblock
  have hlt : id < ids.length := hsplit.size ▸ Graph.isSome_block?.1 (by rw [hblock]; rfl)
  obtain ⟨original, copy, horiginal, hcopy, hsame⟩ :=
    hsplit.instructions id _ (List.getElem?_eq_getElem hlt)
  obtain rfl := Option.some.inj (hblock.symm.trans hcopy)
  obtain ⟨cut, hcut, hcase⟩ := hcorrected.exists_cut horiginal
  exact ⟨_, cut, original, hcut, hcase, hsame⟩

/-- The unit defines the labels at which blocks of its routines start. -/
theorem mem_definedLabels_of_mem_routinesIn {id : BlockId} {block : Block} {label : String}
    (hgraph : graph ∈ unit.routinesIn labels) (hblock : graph.block? id = some block)
    (hlabel : block.label? = some label) : label ∈ unit.definedLabels := by
  obtain ⟨_, cut, original, hcut, hcase, hsame⟩ :=
    exists_cut_of_mem_routinesIn hfresh hgraph hblock
  have hinsn : block.first ∈ original.instructions := hsame ▸ List.mem_cons_self
  have hget := getElem?_of_mem_instructions hfresh (List.mem_of_getElem? hcut) hcase.plain_eq hinsn
  unfold Block.label? at hlabel
  split at hlabel
  next his =>
    exact List.mem_filterMap.2 ⟨_, List.mem_filter.2 ⟨List.mem_of_getElem? hget, his⟩, hlabel⟩
  next => cases hlabel

end Routines

/-! ## Builds -/

namespace Program

theorem value_analyzeAll (graphs : List Graph) :
    (analyzeAll graphs).value = graphs.map (·.analyzeLoops.value) := by
  induction graphs with
  | nil => rfl
  | cons graph graphs ih =>
    unfold analyzeAll
    rw [Traced.value_bind, Traced.value_bind, ih]
    rfl

theorem value_routinesOf (labels : RoutineLabels) {units : List SourceUnit}
    (hfresh : ∀ unit ∈ units, unit.Fresh) :
    ∃ graphs, (routinesOf labels units).run.value = .ok graphs ∧
      graphs.map (·.analyzeLoops.value) = units.flatMap (·.routinesIn labels) := by
  induction units with
  | nil => exact ⟨[], rfl, rfl⟩
  | cons unit units ih =>
    obtain ⟨graphs, hgraphs, heq⟩ := exists_routines (hfresh unit List.mem_cons_self) labels
    obtain ⟨others, hothers, heq'⟩ := ih fun other hother =>
      hfresh other (List.mem_cons_of_mem unit hother)
    refine ⟨graphs ++ others, ?_, ?_⟩
    · unfold routinesOf
      rw [Attempt.value_bind_of_ok _ hgraphs, Attempt.value_bind_of_ok _ hothers]
      rfl
    · rw [List.map_append, List.flatMap_cons, heq, heq']

/-- The graphs that a build makes. -/
def builtGraphs (units : List SourceUnit) : List Graph :=
  units.flatMap (·.routinesIn (routineLabels units))

/-- Building succeeds on units that were just parsed, if there is one. -/
theorem value_build (program : Program) (hsome : program.units ≠ [])
    (hfresh : ∀ unit ∈ program.units, unit.Fresh) :
    program.build.run.value = .ok { program with
      graphs := builtGraphs program.units
      calls := CallGraph.ofGraphs (builtGraphs program.units) } := by
  obtain ⟨graphs, hgraphs, heq⟩ := value_routinesOf (routineLabels program.units) hfresh
  -- Renaming the errors leaves a successful result as it is.
  have hadapt : ((routinesOf (routineLabels program.units) program.units).adapt
      ProgramError.reclassify).run.value = .ok graphs := by
    show Except.mapError _ (routinesOf _ _).run.value = _
    rw [hgraphs]
    rfl
  have hempty : program.units.isEmpty = false := by simpa using hsome
  unfold build
  rw [hempty, if_neg Bool.false_ne_true, Attempt.value_bind_of_ok _ hadapt,
    Attempt.value_bind_of_ok _ (Attempt.value_monadLift _), value_analyzeAll, heq]
  rfl

end Program

end RamOverlay
