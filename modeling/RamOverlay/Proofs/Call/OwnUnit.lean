import Mathlib.Data.List.Nodup
import RamOverlay.Proofs.Call.Accounted

/-!
# Calls between units

Several units may define a label. A call of it means the one of its own unit, but the call graph
takes the last of all. So which units come later decides where a call goes.

* **`StaysInUnit`**: calls of labels that are defined in their own unit lead there.
* **`staysInUnit_iff`**: they do if each foreign block with such a label is followed by an own one.
* **`rank`, `lt_of_rank_lt`**: the routines of a build are listed in the order of the units.
* **`Program.staysInUnit_build`**: so they do if no later unit defines the label again.
-/

namespace RamOverlay

namespace CallGraph

variable {graphs : List Graph} {place other : BlockRef} {label label' : String}

/-- The unit of the routine at a place. -/
def unit? (graphs : List Graph) (place : BlockRef) : Option String :=
  graphs[place.routine]?.map (·.unit)

/-- A call of a label at which a block of its own unit starts has an edge to such a block. -/
def StaysInUnit (calls : CallGraph) (graphs : List Graph) : Prop :=
  ∀ place label own, Calls graphs place label → StartsWith graphs label own →
    unit? graphs own = unit? graphs place →
      ∃ edge ∈ calls.edges, edge.caller = place ∧ StartsWith graphs label edge.callee ∧
        unit? graphs edge.callee = unit? graphs place

/-- A block starts with one label at most. -/
theorem StartsWith.unique (h : StartsWith graphs label place)
    (h' : StartsWith graphs label' place) : label = label' := by
  obtain ⟨block, hblock, hdefines⟩ := h
  obtain ⟨block', hblock', hdefines'⟩ := h'
  obtain rfl := Option.some.inj (hblock.symm.trans hblock')
  exact Instruction.eq_of_definesLabel hdefines hdefines'

/-- Where a call goes is told by the routines behind its unit. -/
theorem staysInUnit_iff : (ofGraphs graphs).StaysInUnit graphs ↔
    ∀ place label own, Calls graphs place label → StartsWith graphs label own →
      unit? graphs own = unit? graphs place → ∀ other, StartsWith graphs label other →
        unit? graphs other ≠ unit? graphs place →
          ∃ last, StartsWith graphs label last ∧ unit? graphs last = unit? graphs place ∧
            other.routine < last.routine := by
  constructor
  · intro h place label own hcalls hown hunit other hother hforeign
    obtain ⟨⟨caller, callee⟩, hedge, rfl, hstarts, hsame⟩ := h place label own hcalls hown hunit
    obtain ⟨label', _, hcallee⟩ := mem_edges_iff.1 hedge
    obtain rfl := hstarts.unique (startsWith_of_entrance? hcallee)
    refine ⟨callee, hstarts, hsame, ?_⟩
    -- the call goes to the last routine with the label, which is in the unit of the call
    have hle := routine_le_of_entrance? hcallee hother
    have hne : other.routine ≠ callee.routine := by
      intro heq
      apply hforeign
      rw [← hsame]
      show graphs[other.routine]?.map _ = graphs[callee.routine]?.map _
      rw [heq]
    exact Nat.lt_of_le_of_ne hle hne
  · intro h place label own hcalls hown hunit
    obtain ⟨callee, hcallee⟩ := exists_entrance? hown
    have hstarts := startsWith_of_entrance? hcallee
    refine ⟨⟨place, callee⟩, mem_edges_iff.2 ⟨label, hcalls, hcallee⟩, rfl, hstarts, ?_⟩
    by_contra hforeign
    obtain ⟨last, hlast, _, hlt⟩ := h place label own hcalls hown hunit callee hstarts hforeign
    exact absurd (routine_le_of_entrance? hcallee hlast) (Nat.not_le.mpr hlt)

end CallGraph

/-- The routines of the unit call one of its own labels. -/
def SourceUnit.CallsOwn (unit : SourceUnit) (labels : RoutineLabels) (label : String) : Prop :=
  label ∈ unit.definedLabels ∧ ∃ graph ∈ unit.routinesIn labels, ∃ id block,
    graph.block? id = some block ∧ ∃ insn ∈ block.instructions,
      insn.entersRoutine = true ∧ insn.destination.label? = some label

namespace Program

open CallGraph

variable {units : List SourceUnit} {unit later : SourceUnit} {graph : Graph}
  {place other : BlockRef} {label : String}

/-! ## The order of the routines -/

/-- The place of a unit in the list, by its name. -/
def rank (units : List SourceUnit) (unit : String) : Nat := (units.map (·.name)).idxOf unit

section Rank

variable (hfresh : ∀ unit ∈ units, unit.Fresh) (hnames : (units.map (·.name)).Nodup)
include hnames

/-- The rank of a unit is its place. -/
theorem rank_getElem {i : Nat} (hi : units[i]? = some unit) : rank units unit.name = i := by
  obtain ⟨hlt, rfl⟩ := List.getElem?_eq_some_iff.mp hi
  have hname := hnames.idxOf_getElem i (by rw [List.length_map]; exact hlt)
  rw [List.getElem_map] at hname
  exact hname

include hfresh

/-- The routines are listed unit after unit. -/
theorem pairwise_rank_builtGraphs : (builtGraphs units).Pairwise fun graph graph' =>
    rank units graph.unit ≤ rank units graph'.unit := by
  refine List.pairwise_flatMap.mpr ⟨fun unit hunit => ?_, ?_⟩
  · refine List.Pairwise.imp_of_mem (R := fun _ _ => True) (fun {graph graph'} h h' _ => ?_)
      (List.pairwise_of_forall fun _ _ => trivial)
    rw [unit_of_mem_routinesIn (hfresh unit hunit) h, unit_of_mem_routinesIn (hfresh unit hunit) h']
  · refine List.pairwise_iff_getElem.mpr fun i j hi hj hlt graph hgraph graph' hgraph' => ?_
    rw [unit_of_mem_routinesIn (hfresh _ (List.getElem_mem hi)) hgraph,
      unit_of_mem_routinesIn (hfresh _ (List.getElem_mem hj)) hgraph',
      rank_getElem hnames (List.getElem?_eq_getElem hi),
      rank_getElem hnames (List.getElem?_eq_getElem hj)]
    exact Nat.le_of_lt hlt

/-- The routines of an earlier unit come before those of a later one. -/
theorem lt_of_rank_lt {i j : Nat} {graph' : Graph} (hi : (builtGraphs units)[i]? = some graph)
    (hj : (builtGraphs units)[j]? = some graph')
    (hlt : rank units graph.unit < rank units graph'.unit) : i < j := by
  obtain ⟨hilt, rfl⟩ := List.getElem?_eq_some_iff.mp hi
  obtain ⟨hjlt, rfl⟩ := List.getElem?_eq_some_iff.mp hj
  by_contra hge
  rcases Nat.eq_or_lt_of_le (Nat.le_of_not_lt hge) with heq | hgt
  · subst heq
    exact absurd hlt (Nat.lt_irrefl _)
  · have hle := List.pairwise_iff_getElem.mp (pairwise_rank_builtGraphs hfresh hnames) j i hjlt hilt
      hgt
    omega

end Rank

/-! ## Places in a build -/

/-- The routine at the place is one of the unit `i` of the build. -/
def InUnit (units : List SourceUnit) (i : Nat) (place : BlockRef) : Prop :=
  ∃ unit graph, units[i]? = some unit ∧ graph ∈ unit.routinesIn (routineLabels units) ∧
    (builtGraphs units)[place.routine]? = some graph

section Places

variable {i j : Nat} (hfresh : ∀ unit ∈ units, unit.Fresh)

/-- Each routine is of some unit. -/
theorem exists_inUnit {block : Block} (h : block? (builtGraphs units) place = some block) :
    ∃ i, InUnit units i place := by
  obtain ⟨graph, hgraph, _⟩ := block?_eq_some_iff.1 h
  obtain ⟨unit, hunit, hmem⟩ := List.mem_flatMap.mp (List.mem_of_getElem? hgraph)
  obtain ⟨i, hi⟩ := List.mem_iff_getElem?.mp hunit
  exact ⟨i, unit, graph, hi, hmem, hgraph⟩

/-- A block of a routine of a unit has a place in the build. -/
theorem exists_place {id : BlockId} {block : Block} (hi : units[i]? = some unit)
    (hgraph : graph ∈ unit.routinesIn (routineLabels units))
    (hblock : graph.block? id = some block) :
    ∃ place, InUnit units i place ∧ block? (builtGraphs units) place = some block := by
  have hmem : graph ∈ builtGraphs units :=
    List.mem_flatMap.mpr ⟨unit, List.mem_of_getElem? hi, hgraph⟩
  obtain ⟨routine, hroutine⟩ := List.mem_iff_getElem?.mp hmem
  exact ⟨⟨routine, id⟩, ⟨unit, graph, hi, hgraph, hroutine⟩,
    block?_eq_some_iff.2 ⟨graph, hroutine, hblock⟩⟩

theorem InUnit.exists_graph {block : Block} (h : InUnit units i place) (hi : units[i]? = some unit)
    (hblock : block? (builtGraphs units) place = some block) :
    ∃ graph ∈ unit.routinesIn (routineLabels units), graph.block? place.block = some block := by
  obtain ⟨unit', graph, hi', hmem, hgraph⟩ := h
  obtain rfl := Option.some.inj (hi.symm.trans hi')
  obtain ⟨graph', hgraph', hblock⟩ := block?_eq_some_iff.1 hblock
  obtain rfl := Option.some.inj (hgraph.symm.trans hgraph')
  exact ⟨graph, hmem, hblock⟩

/-- A unit calls a label of its own exactly if a place of the unit does. -/
theorem callsOwn_iff (hi : units[i]? = some unit) :
    unit.CallsOwn (routineLabels units) label ↔ label ∈ unit.definedLabels ∧
      ∃ place, InUnit units i place ∧ Calls (builtGraphs units) place label := by
  refine and_congr_right fun _ => ⟨?_, ?_⟩
  · rintro ⟨graph, hgraph, id, block, hblock, hcalls⟩
    obtain ⟨place, hplace, hblock⟩ := exists_place hi hgraph hblock
    exact ⟨place, hplace, block, hblock, hcalls⟩
  · rintro ⟨place, hplace, block, hblock, hcalls⟩
    obtain ⟨graph, hgraph, hblock⟩ := hplace.exists_graph hi hblock
    exact ⟨graph, hgraph, place.block, block, hblock, hcalls⟩

include hfresh

theorem InUnit.unit?_eq (h : InUnit units i place) (hi : units[i]? = some unit) :
    unit? (builtGraphs units) place = some unit.name := by
  obtain ⟨unit', graph, hi', hmem, hgraph⟩ := h
  obtain rfl := Option.some.inj (hi.symm.trans hi')
  show (builtGraphs units)[place.routine]?.map _ = _
  rw [hgraph, Option.map_some, unit_of_mem_routinesIn (hfresh unit (List.mem_of_getElem? hi)) hmem]

/-- A label at which a routine of a unit has a block is defined there. -/
theorem InUnit.mem_definedLabels (h : InUnit units i place) (hi : units[i]? = some unit)
    (hstarts : StartsWith (builtGraphs units) label place) : label ∈ unit.definedLabels := by
  obtain ⟨block, hblock, hdefines⟩ := hstarts
  obtain ⟨graph, hmem, hblock⟩ := h.exists_graph hi hblock
  exact mem_definedLabels_of_mem_routinesIn (hfresh unit (List.mem_of_getElem? hi)) hmem hblock
    (Block.label?_eq_some_iff.2 hdefines)

/-- A label of a routine that a unit defines begins one of the blocks of the unit. -/
theorem exists_startsWith_inUnit (hplain : ∀ unit ∈ units, unit.PlainSlots)
    (hi : units[i]? = some unit) (hlabel : label ∈ routineLabels units)
    (hdefined : label ∈ unit.definedLabels) :
    ∃ place, InUnit units i place ∧ StartsWith (builtGraphs units) label place := by
  have hunit := List.mem_of_getElem? hi
  obtain ⟨graph, hgraph, id, block, hblock, hdefines⟩ :=
    exists_block_of_mem_definedLabels (hfresh unit hunit) (hplain unit hunit) hlabel hdefined
  obtain ⟨place, hplace, hblock⟩ := exists_place hi hgraph hblock
  exact ⟨place, hplace, block, hblock, hdefines⟩

variable (hnames : (units.map (·.name)).Nodup)
include hnames

/-- A place is in one unit, and that is known by its name. -/
theorem InUnit.eq_of_unit?_eq (h : InUnit units i place) (h' : InUnit units j other)
    (hsame : unit? (builtGraphs units) place = unit? (builtGraphs units) other) : i = j := by
  obtain ⟨unit, _, hi, _⟩ := id h
  obtain ⟨unit', _, hj, _⟩ := id h'
  rw [h.unit?_eq hfresh hi, h'.unit?_eq hfresh hj] at hsame
  rw [← rank_getElem hnames hi, Option.some.inj hsame, rank_getElem hnames hj]

/-- The routines of an earlier unit stand before those of a later one. -/
theorem InUnit.routine_lt (h : InUnit units i place) (h' : InUnit units j other) (hlt : i < j) :
    place.routine < other.routine := by
  obtain ⟨unit, graph, hi, hmem, hgraph⟩ := h
  obtain ⟨unit', graph', hj, hmem', hgraph'⟩ := h'
  apply lt_of_rank_lt hfresh hnames hgraph hgraph'
  rw [unit_of_mem_routinesIn (hfresh unit (List.mem_of_getElem? hi)) hmem,
    unit_of_mem_routinesIn (hfresh unit' (List.mem_of_getElem? hj)) hmem',
    rank_getElem hnames hi, rank_getElem hnames hj]
  exact hlt

end Places

/-! ## Calls of own labels -/

section Own

variable (hfresh : ∀ unit ∈ units, unit.Fresh) (hplain : ∀ unit ∈ units, unit.PlainSlots)
  (hnames : (units.map (·.name)).Nodup)
include hfresh hplain hnames

/-- An entrance of a later unit takes the place of one before, so a call stays in its unit exactly
if no later unit defines its label. -/
theorem staysInUnit_builtGraphs :
    (ofGraphs (builtGraphs units)).StaysInUnit (builtGraphs units) ↔
      units.Pairwise fun unit later => ∀ label, unit.CallsOwn (routineLabels units) label →
        label ∉ later.definedLabels := by
  rw [staysInUnit_iff, List.pairwise_iff_getElem]
  constructor
  · intro h i j hi hj hlt label hown hdefined
    have hi := List.getElem?_eq_getElem hi
    have hj := List.getElem?_eq_getElem hj
    obtain ⟨hdefined', place, hplace, hcalls⟩ := (callsOwn_iff hi).1 hown
    have hroutine := mem_routineLabels_of_calls hfresh hcalls
    obtain ⟨own, hown, hstarts⟩ := exists_startsWith_inUnit hfresh hplain hi hroutine hdefined'
    obtain ⟨other, hother, hstarts'⟩ := exists_startsWith_inUnit hfresh hplain hj hroutine hdefined
    -- the block of the later unit would have to be followed by one of the calling unit
    obtain ⟨last, hlast, hsame, hbehind⟩ := h place label own hcalls hstarts
      ((hown.unit?_eq hfresh hi).trans (hplace.unit?_eq hfresh hi).symm) other hstarts' fun hsame =>
        absurd (hother.eq_of_unit?_eq hfresh hnames hplace hsame) (Nat.ne_of_gt hlt)
    obtain ⟨_, hblock', _⟩ := hlast
    obtain ⟨k, hk⟩ := exists_inUnit hblock'
    obtain rfl := hk.eq_of_unit?_eq hfresh hnames hplace hsame
    exact absurd (hk.routine_lt hfresh hnames hother hlt) (Nat.not_lt_of_lt hbehind)
  · intro h place label own hcalls hown hsame other hother hforeign
    obtain ⟨_, hblock', _⟩ := id hown
    obtain ⟨i, hi⟩ := exists_inUnit hblock'
    obtain ⟨_, hblock'', _⟩ := id hother
    obtain ⟨j, hj⟩ := exists_inUnit hblock''
    refine ⟨own, hown, hsame, ?_⟩
    obtain ⟨unit, _, hunit, _⟩ := id hi
    obtain ⟨later, _, hlater, _⟩ := id hj
    rcases Nat.lt_trichotomy i j with hlt | rfl | hgt
    · -- then the calling unit calls a label of its own, and the later one defines it too
      obtain ⟨hilt, rfl⟩ := List.getElem?_eq_some_iff.mp hunit
      obtain ⟨hjlt, rfl⟩ := List.getElem?_eq_some_iff.mp hlater
      obtain ⟨_, hblock, _⟩ := id hcalls
      obtain ⟨k, hk⟩ := exists_inUnit hblock
      obtain rfl := hk.eq_of_unit?_eq hfresh hnames hi hsame.symm
      have hdefined := hi.mem_definedLabels hfresh hunit hown
      exact absurd (hj.mem_definedLabels hfresh hlater hother)
        (h k j hilt hjlt hlt label ((callsOwn_iff hunit).2 ⟨hdefined, place, hk, hcalls⟩))
    · refine absurd ?_ hforeign
      rw [← hsame, hj.unit?_eq hfresh hunit, hi.unit?_eq hfresh hunit]
    · exact hj.routine_lt hfresh hnames hi hgt

end Own

/-- Calls of own labels lead into the own unit if and only if no later unit defines such a label
again. -/
theorem staysInUnit_build (program : Program) (hsome : program.units ≠ [])
    (hfresh : ∀ unit ∈ program.units, unit.Fresh)
    (hplain : ∀ unit ∈ program.units, unit.PlainSlots)
    (hnames : (program.units.map (·.name)).Nodup) :
    ∃ built, program.build.run.value = .ok built ∧
      (built.calls.StaysInUnit built.graphs ↔ program.units.Pairwise fun unit later =>
        ∀ label, unit.CallsOwn (routineLabels program.units) label →
          label ∉ later.definedLabels) :=
  ⟨_, value_build program hsome hfresh, staysInUnit_builtGraphs hfresh hplain hnames⟩

/-- The theorem applied to units without a label in common. -/
theorem staysInUnit_build_printingCaller :
    [printingCaller, brancher] ≠ [] ∧ (∀ unit ∈ [printingCaller, brancher], unit.Fresh) ∧
      (∀ unit ∈ [printingCaller, brancher], unit.PlainSlots) ∧
        ([printingCaller, brancher].map (·.name)).Nodup ∧
          ∃ built, ({ units := [printingCaller, brancher] } : Program).build.run.value = .ok built ∧
            built.calls.StaysInUnit built.graphs := by
  have hnames : ([printingCaller, brancher].map (·.name)).Nodup := by decide
  have hsome : [printingCaller, brancher] ≠ [] := List.cons_ne_nil _ _
  obtain ⟨built, hbuilt, hiff⟩ :=
    staysInUnit_build { units := [printingCaller, brancher] } hsome fresh_printingCaller
      plainSlots_printingCaller hnames
  have hlabels : ∀ label ∈ printingCaller.definedLabels, label ∉ brancher.definedLabels := by
    decide +kernel
  refine ⟨hsome, fresh_printingCaller, plainSlots_printingCaller, hnames, built, hbuilt,
    hiff.2 ?_⟩
  exact List.pairwise_pair.2 fun label hown => hlabels label hown.1

/-- A unit that calls a function of its own. -/
def ownCaller : SourceUnit :=
  (SourceUnit.parse "a.s"
    ("\t.type\tf, %function\nf:\n\tbl\tg\n\tbx\tlr\n"
      ++ "\t.type\tg, %function\ng:\n\tbx\tlr\n")).value

/-- A unit with another function of the same name. -/
def namesake : SourceUnit :=
  (SourceUnit.parse "b.s" "\t.type\tg, %function\ng:\n\tbx\tlr\n").value

/-- The call goes to the function of the later unit. -/
theorem not_staysInUnit_namesake :
    (∀ unit ∈ [ownCaller, namesake], unit.Fresh) ∧
      (∀ unit ∈ [ownCaller, namesake], unit.PlainSlots) ∧
        ([ownCaller, namesake].map (·.name)).Nodup ∧
          ∃ built, ({ units := [ownCaller, namesake] } : Program).build.run.value = .ok built ∧
            ¬ built.calls.StaysInUnit built.graphs := by
  have hfresh : ∀ unit ∈ [ownCaller, namesake], unit.Fresh :=
    List.forall_mem_cons.2 ⟨SourceUnit.fresh_parse _ _,
      List.forall_mem_singleton.2 (SourceUnit.fresh_parse _ _)⟩
  have hplain : ∀ unit ∈ [ownCaller, namesake], unit.PlainSlots :=
    List.forall_mem_cons.2 ⟨SourceUnit.plainSlots_parse _ _,
      List.forall_mem_singleton.2 (SourceUnit.plainSlots_parse _ _)⟩
  have hbuilt := value_build { units := [ownCaller, namesake] } (List.cons_ne_nil _ _) hfresh
  refine ⟨hfresh, hplain, by decide, _, hbuilt, ?_⟩
  dsimp only
  have hfacts : (block? (builtGraphs [ownCaller, namesake]) ⟨0, 0⟩).any (fun block =>
        block.instructions.any fun insn =>
          insn.entersRoutine && insn.destination.label? == some "g") ∧
      (block? (builtGraphs [ownCaller, namesake]) ⟨1, 0⟩).any (·.first.definesLabel "g") ∧
      [0, 1].map (unit? (builtGraphs [ownCaller, namesake]) ⟨·, 0⟩) = [some "a.s", some "a.s"] ∧
      (ofGraphs (builtGraphs [ownCaller, namesake])).edges.all fun edge =>
        unit? (builtGraphs [ownCaller, namesake]) edge.callee == some "b.s" := by
    decide +kernel
  obtain ⟨hcalls, hstarts, hunits, hedges⟩ := hfacts
  intro hstays
  have hcall : Calls (builtGraphs [ownCaller, namesake]) ⟨0, 0⟩ "g" := by
    obtain ⟨block, hblock, hany⟩ := (Option.any_eq_true _ _).1 hcalls
    obtain ⟨insn, hinsn, hboth⟩ := List.any_eq_true.1 hany
    obtain ⟨henters, hlabel⟩ := Bool.and_eq_true_iff.1 hboth
    exact ⟨block, hblock, insn, hinsn, henters, beq_iff_eq.1 hlabel⟩
  have hown : StartsWith (builtGraphs [ownCaller, namesake]) "g" ⟨1, 0⟩ := by
    obtain ⟨block, hblock, hdefines⟩ := (Option.any_eq_true _ _).1 hstarts
    exact ⟨block, hblock, hdefines⟩
  simp only [List.map_cons, List.map_nil, List.cons.injEq, and_true] at hunits
  have hsame := hunits.2.trans hunits.1.symm
  obtain ⟨edge, hedge, _, _, hunit⟩ := hstays ⟨0, 0⟩ "g" ⟨1, 0⟩ hcall hown hsame
  have hforeign := beq_iff_eq.1 (List.all_eq_true.1 hedges edge hedge)
  rw [hunit, hunits.1] at hforeign
  revert hforeign
  decide

end Program

end RamOverlay
