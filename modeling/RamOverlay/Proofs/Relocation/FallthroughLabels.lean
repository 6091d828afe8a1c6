import Mathlib.Algebra.BigOperators.Group.List.Basic
import RamOverlay.Proofs.Relocation.LabelLines

/-!
# Where the labels of long exits are defined

A long exit that falls through goes to a label of its own, which relocation puts before the entry
after the block. Edits behind the last line are lost, and with them the label of a block that ends
on the last line of its unit.

* **`LineEdits.countP_apply`**: the definitions on an edited line.
* **`SourceUnit.Places.countP_labelsBefore`**: the label of a block stands before one line only.
* **`Program.countP_fallthroughLabel`**: how often the label of a long exit is defined in the text
  of a relocated unit, and what stands around the definition if a block begins behind it.
-/

namespace RamOverlay

open Source Exit

/-! ## The definitions on an edited line -/

/-- Inert texts define no fallthrough label. -/
theorem countP_cutLines_of_inert {texts : List String} (h : ∀ text ∈ texts, Text.Inert text)
    (n : Nat) : (cutLines texts).countP (definesLabel (fallthroughLabel n)) = 0 := by
  rw [List.countP_eq_zero]
  intro line hline
  obtain ⟨text, htext, hpiece⟩ := List.mem_flatMap.1 hline
  rw [(h text htext).not_definesLabel hpiece]
  exact Bool.false_ne_true

/-- An edited line defines the label if the line does, and once more for each label of this name
that is put before it. -/
theorem LineEdits.countP_apply {change : LineEdits} {text : String} (labels : List String) {n : Nat}
    (hbefore : ∀ text ∈ change.before, Text.Inert text)
    (hinPlace : ∀ text ∈ change.inPlace, Text.Inert text)
    (hafter : ∀ text ∈ change.after, Text.Inert text)
    (hdrops : change.removed = true ∨ change.inPlace ≠ [] →
      definesLabel (fallthroughLabel n) text = false) :
    (({ change with before := change.before ++ labels } : LineEdits).apply text).countP
        (definesLabel (fallthroughLabel n)) =
      [text].countP (definesLabel (fallthroughLabel n)) +
        (cutLines labels).countP (definesLabel (fallthroughLabel n)) := by
  -- a line that is dropped or replaced does not define the label, and what replaces it neither
  have hmiddle : (if change.inPlace.isEmpty then (if change.removed then [] else [text])
      else cutLines change.inPlace).countP (definesLabel (fallthroughLabel n)) =
        [text].countP (definesLabel (fallthroughLabel n)) := by
    split
    · split
      next hremoved => rw [List.countP_singleton, hdrops (.inl hremoved)]; rfl
      next => rfl
    next hsome =>
      have hne : change.inPlace ≠ [] := fun hnil => hsome (List.isEmpty_iff.2 hnil)
      rw [countP_cutLines_of_inert hinPlace, List.countP_singleton, hdrops (.inr hne)]
      rfl
  have hlabels : cutLines (change.before ++ labels) = cutLines change.before ++ cutLines labels :=
    List.flatMap_append
  unfold LineEdits.apply
  rw [List.countP_append, List.countP_append, hlabels, List.countP_append, hmiddle,
    countP_cutLines_of_inert hbefore, countP_cutLines_of_inert hafter]
  omega

/-- Lines of which one has something more. -/
theorem EditList.countP_applyFrom {edits : EditList} {counts : String → Bool} {line extra : Nat}
    {source : List String} (h : ∀ i text, source[i]? = some text →
      ((edits.atLine (line + i)).apply text).countP counts =
        [text].countP counts + if extra = line + i then 1 else 0) :
    (edits.applyFrom line source).countP counts =
      source.countP counts + if line ≤ extra ∧ extra < line + source.length then 1 else 0 := by
  induction source generalizing line with
  | nil =>
    rw [if_neg (by rw [List.length_nil]; omega)]
    rfl
  | cons text source ih =>
    have hfirst := h 0 text rfl
    rw [Nat.add_zero] at hfirst
    have hrest := @ih (line + 1) fun i text htext => by
      rw [Nat.add_assoc, Nat.add_comm 1]
      exact h (i + 1) text htext
    have hcount : (text :: source).countP counts = [text].countP counts + source.countP counts := by
      rw [← List.singleton_append, List.countP_append]
    rw [applyFrom, List.countP_append, hfirst, hrest, hcount, List.length_cons]
    -- the line with something more is the first one, or one of the others
    by_cases heq : extra = line
    · rw [if_pos heq, if_neg (by omega), if_pos (by omega)]
      omega
    · rw [if_neg heq]
      by_cases hlater : line + 1 ≤ extra ∧ extra < line + 1 + source.length
      · rw [if_pos hlater, if_pos (by omega)]
        omega
      · rw [if_neg hlater, if_neg (by omega)]
        omega

namespace SourceUnit

variable {unit : SourceUnit} {routines : RoutineLabels} {register text : String}
  {placed : List PlacedBlock} {p q : PlacedBlock} {exit : Exit} {line : Nat}

/-- A block defines its own label once, before the line behind it, and no other one. -/
theorem countP_labelChange (p : PlacedBlock) (line n : Nat) :
    (cutLines (p.labelChange unit line).before).countP (definesLabel (fallthroughLabel n)) =
      if (p.exit? unit.name).any Exit.fallsThrough = true ∧ unit.lineAfter p.block = line ∧
        p.block.tail.line = n then 1 else 0 := by
  -- the label is one line of text
  have hlabel : Text.piecesOf '\n' (fallthroughLabel p.block.tail.line ++ ":") =
      [fallthroughLabel p.block.tail.line ++ ":"] := by
    have hplain := (plain_fallthroughLabel p.block.tail.line).append (t := ":") (by decide)
    rw [Text.piecesOf, Text.pieces_of_not_mem fun hmem => (hplain _ hmem).1 rfl, List.map_singleton,
      String.ofList_toList]
  unfold PlacedBlock.labelChange
  cases p.exit? unit.name with
  | none => simp [cutLines]
  | some exit =>
    dsimp only
    split
    next h =>
      rw [cutLines, List.flatMap_singleton, hlabel, List.countP_singleton,
        definesLabel_fallthroughLabel]
      simp [h]
    next h =>
      rw [if_neg fun h' => h ⟨h'.2.1, h'.1⟩]
      rfl

namespace Places

variable (h : unit.Places routines placed) (hparsed : unit.Parsed)
include h hparsed

theorem nodup : placed.Nodup := by
  refine (h.disjointLines hparsed).imp fun {p q} hpq heq => ?_
  exact hpq p.block.line ⟨p.standsOn_line, heq ▸ p.standsOn_line⟩

/-- The label of the long exit of a block stands before one line only. -/
theorem countP_labelsBefore (hp : p ∈ placed) (hexit : p.exit? unit.name = some exit)
    (hfalls : exit.fallsThrough = true) (line : Nat) :
    (cutLines (unit.labelsBefore placed line)).countP
        (definesLabel (fallthroughLabel p.block.tail.line)) =
      if unit.lineAfter p.block = line then 1 else 0 := by
  have hcut : cutLines (unit.labelsBefore placed line) =
      placed.flatMap fun q => cutLines (q.labelChange unit line).before := List.flatMap_assoc
  rw [hcut, List.countP_flatMap, List.sum_map_eq_nsmul_single p,
    List.count_eq_one_of_mem (h.nodup hparsed) hp, one_nsmul, Function.comp_apply,
    countP_labelChange, hexit]
  · simp [hfalls]
  · -- the tails of other blocks are on other lines
    intro q hne hq
    rw [Function.comp_apply, countP_labelChange, if_neg]
    rintro ⟨-, -, htail⟩
    exact hne ((h.disjointLines hparsed).eq_of_standsOn hq hp q.standsOn_tail
      (htail ▸ p.standsOn_tail))

/-- What is put in on a line defines no label of a long exit, apart from those before it, and a line
that defines one comes through. -/
theorem countP_apply_changesAt (hname : '\n' ∉ unit.name.toList)
    (hregister : '\n' ∉ register.toList)
    (hexits : ∀ p ∈ placed, p.crosses = true → ∃ exit, p.exit? unit.name = some exit)
    (hline : unit.lines[line]? = some text) (n : Nat) :
    ((unit.changesAt register placed line).apply text).countP (definesLabel (fallthroughLabel n)) =
      [text].countP (definesLabel (fallthroughLabel n)) +
        (cutLines (unit.labelsBefore placed line)).countP (definesLabel (fallthroughLabel n)) := by
  -- without a block on the line nothing but labels is put there
  by_cases hon : ∃ q ∈ placed, q.StandsOn line
  · obtain ⟨q, hq, hon⟩ := hon
    obtain ⟨u, hu⟩ := h.isBlock q hq
    have htail := hu.isRead_tail hparsed
    have hplain : ∀ insn ∈ q.block.instructions, Source.Plain insn.operands := fun insn hinsn =>
      (hparsed.isRead _ (h.mem_instructions hparsed hq hinsn)).plain
    rw [changesAt_of_standsOn (h.disjointLines hparsed) hq hon]
    refine LineEdits.countP_apply _ ?_ ?_ ?_ fun hdrops => Bool.eq_false_iff.2 fun hdefines => ?_
    · rw [PlacedBlock.before_change]
      exact forall_mem_ite (PlacedBlock.inert_opening hname) (List.forall_mem_nil _)
    · rw [PlacedBlock.inPlace_change]
      exact PlacedBlock.inert_replacements hregister hplain
    · rw [PlacedBlock.after_change]
      have hmark : Text.Inert (q.mark unit.name) := PlacedBlock.inert_mark hname
      exact List.forall_mem_append.2
        ⟨forall_mem_ite (PlacedBlock.inert_closing hregister htail) (List.forall_mem_nil _),
          forall_mem_ite (List.forall_mem_singleton.2 hmark) (List.forall_mem_nil _)⟩
    · have hrewrites := (PlacedBlock.rewrites_iff (hexits q hq)).2 hdrops
      obtain ⟨insn, hinsn, rfl, hoperator⟩ := hrewrites.exists_operator_ne htail
      have hmem := h.mem_instructions hparsed hq hinsn
      have hnone : insn.plain.operator = "" :=
        hparsed.operator_of_definesLabel hmem hline hdefines
      exact hoperator hnone
  · rw [changesAt_of_not_standsOn fun q hq hon' => hon ⟨q, hq, hon'⟩]
    refine @LineEdits.countP_apply {} text _ n ?_ ?_ ?_ ?_
    · exact List.forall_mem_nil _
    · exact List.forall_mem_nil _
    · exact List.forall_mem_nil _
    · rintro (hremoved | hne)
      · cases hremoved
      · exact absurd rfl hne

/-- The lines of the edited text that define the label of a long exit: those of the source, and one
more if the label is put before a line of the source. -/
theorem countP_apply {edits : EditList} (hname : '\n' ∉ unit.name.toList)
    (hregister : '\n' ∉ register.toList)
    (hat : ∀ line, edits.atLine line = unit.changesAt register placed line)
    (hdata : edits.dataTexts = [])
    (hexits : ∀ p ∈ placed, p.crosses = true → ∃ exit, p.exit? unit.name = some exit)
    (hp : p ∈ placed) (hexit : p.exit? unit.name = some exit) (hfalls : exit.fallsThrough = true) :
    (edits.apply unit.lines).countP (definesLabel (fallthroughLabel p.block.tail.line)) =
      unit.lines.countP (definesLabel (fallthroughLabel p.block.tail.line)) +
        if unit.lineAfter p.block < unit.lines.length then 1 else 0 := by
  -- line by line: only the line that the label is put before has one more
  have hlines : ∀ (i : Nat) (text : String), unit.lines[i]? = some text →
      ((edits.atLine (0 + i)).apply text).countP
          (definesLabel (fallthroughLabel p.block.tail.line)) =
        [text].countP (definesLabel (fallthroughLabel p.block.tail.line)) +
          if unit.lineAfter p.block = 0 + i then 1 else 0 := by
    intro i text htext
    rw [Nat.zero_add, hat, h.countP_apply_changesAt hparsed hname hregister hexits htext,
      h.countP_labelsBefore hparsed hp hexit hfalls]
  have hend : Text.Inert ".data" := by decide
  have hlast : ([".data"] : List String).countP
      (definesLabel (fallthroughLabel p.block.tail.line)) = 0 :=
    countP_cutLines_of_inert (List.forall_mem_singleton.2 hend) _
  rw [EditList.apply, hdata, List.countP_append, EditList.countP_applyFrom hlines, Nat.zero_add]
  simp only [Nat.zero_le, true_and]
  exact congrArg (_ + ·) hlast

end Places

/-! ## The place of a label -/

/-- The first line of a block, or what stands in its place: a text, or the long exit of a block that
is a branch only. -/
def BeginsBlock (unit register : String) (q : PlacedBlock) (passage : Passage) : Prop :=
  passage.line = q.block.line ∧ (passage.origin = .source ∨ passage.origin = .inPlace ∨
    ∃ exit, q.exit? unit = some exit ∧
      passage = ⟨.after, q.block.tail.line, exit.code register q.block.tail.line⟩)

/-- On the first line of a block, the line or what stands in its place comes behind the texts before
the line. -/
theorem exists_first_passage (q : PlacedBlock) (unit register text : String) :
    ∃ first back, (q.change unit register q.block.line).middle q.block.line text ++
        (q.change unit register q.block.line).after.map
          (fun text => (⟨.after, q.block.line, text⟩ : Passage)) = first :: back ∧
      BeginsBlock unit register q first ∧ ∀ passage ∈ back, passage.origin ≠ .before := by
  have hafter : ∀ passage ∈ (q.change unit register q.block.line).after.map
      (fun text => (⟨.after, q.block.line, text⟩ : Passage)), passage.origin ≠ .before := by
    intro passage hpassage
    obtain ⟨_, -, rfl⟩ := List.mem_map.1 hpassage
    exact Origin.noConfusion
  have hmiddle : ∀ passage ∈ (q.change unit register q.block.line).middle q.block.line text,
      passage.origin = .source ∨ passage.origin = .inPlace := by
    intro passage hpassage
    rcases LineEdits.cases_of_mem_middle hpassage with rfl | ⟨_, -, rfl⟩
    · exact .inl rfl
    · exact .inr rfl
  cases hcases : (q.change unit register q.block.line).middle q.block.line text with
  | cons first back =>
    rw [hcases] at hmiddle
    obtain ⟨hfirst, hback⟩ := List.forall_mem_cons.1 hmiddle
    have hline : first.line = q.block.line :=
      LineEdits.line_of_mem_middle (hcases ▸ List.mem_cons_self)
    refine ⟨first, _, rfl, ⟨hline, hfirst.imp_right .inl⟩, ?_⟩
    refine List.forall_mem_append.2 ⟨fun passage hpassage => ?_, hafter⟩
    rcases hback passage hpassage with heq | heq <;> rw [heq] <;> exact Origin.noConfusion
  | nil =>
    -- the line is a branch that is removed, and its long exit comes next
    have hremoved : (q.change unit register q.block.line).removed = true := by
      unfold LineEdits.middle at hcases
      split at hcases
      · split at hcases
        next hremoved => exact hremoved
        next => cases hcases
      next hsome =>
        exact absurd (List.isEmpty_iff.2 (List.map_eq_nil_iff.1 hcases)) hsome
    rw [PlacedBlock.removed_change, Bool.and_eq_true, Bool.and_eq_true, beq_iff_eq] at hremoved
    obtain ⟨⟨htail, -⟩, hsome⟩ := hremoved
    obtain ⟨exit, hexit⟩ := Option.isSome_iff_exists.1 hsome
    have hpool : q.hasPool = false := by
      rw [PlacedBlock.hasPool, (PlacedBlock.exit?_eq_some.1 hexit).1, Bool.not_true, Bool.and_false]
    rw [PlacedBlock.after_change, if_pos htail, PlacedBlock.closing, hpool, hexit] at hafter ⊢
    have hback := (List.forall_mem_cons.1 hafter).2
    exact ⟨_, _, rfl, ⟨rfl, .inr (.inr ⟨exit, hexit, by rw [htail]⟩)⟩, hback⟩

namespace Places

variable (h : unit.Places routines placed) (hparsed : unit.Parsed)
include h hparsed

/-- Before a block, the line behind is the first one of that block. -/
theorem lineAfter_eq (hq : q ∈ placed) (haddress : q.block.address = p.block.last.address + 1) :
    unit.lineAfter p.block = q.block.line := by
  obtain ⟨v, hv⟩ := h.isBlock q hq
  have hget := hv.getElem?_address hparsed.fresh (List.mem_cons_self (a := q.block.first))
  have hnext : unit.instructions[p.block.last.address + 1]? = some q.block.first.plain :=
    haddress ▸ hget
  rw [lineAfter, hnext]
  rfl

/-- The label before a block comes behind all texts that open the block, and only other labels stand
between it and the block. -/
theorem exists_label_passage {edits : EditList}
    (hat : ∀ line, edits.atLine line = unit.changesAt register placed line) (hp : p ∈ placed)
    (hexit : p.exit? unit.name = some exit) (hfalls : exit.fallsThrough = true) (hq : q ∈ placed)
    (hline : unit.lineAfter p.block = q.block.line) :
    ∃ front labels first back, edits.passages unit.lines =
        front ++ ⟨.before, q.block.line, fallthroughLabel p.block.tail.line ++ ":"⟩ ::
          (labels ++ first :: back) ∧
      (∀ text ∈ q.opening unit.name, ⟨.before, q.block.line, text⟩ ∈ front) ∧
      (∀ passage ∈ labels, ∃ n, passage = ⟨.before, q.block.line, fallthroughLabel n ++ ":"⟩) ∧
      BeginsBlock unit.name register q first ∧
      ∀ passage ∈ back, passage.line = q.block.line → passage.origin ≠ .before := by
  obtain ⟨v, hv⟩ := h.isBlock q hq
  have hfirst : q.block.first ∈ q.block.instructions := List.mem_cons_self
  have hlt : q.block.line < unit.lines.length := hv.line_lt hparsed hfirst
  have htext := List.getElem?_eq_getElem hlt
  -- other blocks may have labels before the same line, on both sides of this one
  obtain ⟨former, later, hlabels⟩ := List.append_of_mem
    (mem_labelsBefore.2 ⟨p, hp, exit, hexit, hfalls, hline, rfl⟩)
  have hothers : ∀ text ∈ later, ∃ n, text = fallthroughLabel n ++ ":" := by
    intro text htext
    obtain ⟨other, -, _, -, -, -, rfl⟩ := mem_labelsBefore.1
      (hlabels ▸ List.mem_append_right former (List.mem_cons_of_mem _ htext))
    exact ⟨_, rfl⟩
  obtain ⟨first, back, hrest, hbegins, hback⟩ :=
    exists_first_passage q unit.name register unit.lines[q.block.line]
  refine ⟨edits.passages (unit.lines.take q.block.line) ++
      (q.opening unit.name ++ former).map fun text => ⟨.before, q.block.line, text⟩,
    later.map fun text => ⟨.before, q.block.line, text⟩, first,
    back ++ edits.passagesFrom (q.block.line + 1) (unit.lines.drop (q.block.line + 1)), ?_, ?_, ?_,
    hbegins, ?_⟩
  · rw [EditList.passages_eq htext, hat,
      changesAt_of_standsOn (h.disjointLines hparsed) hq q.standsOn_line]
    show _ ++ (List.map _ ((q.change unit.name register q.block.line).before ++ _) ++
      ((q.change unit.name register q.block.line).middle _ _ ++
        (q.change unit.name register q.block.line).after.map _) ++ _) = _
    rw [PlacedBlock.before_change, if_pos rfl, hlabels, hrest]
    simp
  · intro text htext
    refine List.mem_append_right _ (List.mem_map_of_mem (List.mem_append_left _ htext))
  · intro passage hpassage
    obtain ⟨text, htext, rfl⟩ := List.mem_map.1 hpassage
    obtain ⟨n, rfl⟩ := hothers text htext
    exact ⟨n, rfl⟩
  · intro passage hpassage hsame
    rcases List.mem_append.1 hpassage with hpassage | hpassage
    · exact hback passage hpassage
    · -- the passages of later lines
      obtain ⟨i, text, -, hmem⟩ := EditList.mem_passagesFrom.1 hpassage
      have hlater := LineEdits.line_of_mem_passages hmem
      omega

end Places

end SourceUnit

namespace Program

variable {program : Program} {graphs : List Graph} {unit : SourceUnit} {register : String}
  {edits : EditList} {stats : RelocationStats} {p : PlacedBlock} {exit : Exit}

/-- The label of a long exit that falls through is defined once by the edits, if the line after its
block is a line of the unit, and else not at all; lines of the source may define it too. If a block
begins behind the exit, the label stands right before it. -/
theorem countP_fallthroughLabel (hread : ∀ unit ∈ program.units, unit.Parsed)
    (hnames : (program.units.map (·.name)).Nodup) (hplaced : program.IsPlacement graphs)
    (hunit : unit ∈ program.units) (hname : '\n' ∉ unit.name.toList)
    (hregister : '\n' ∉ register.toList)
    (hrelocate : (unit.relocate register graphs).run.value = .ok (edits, stats))
    (hp : p ∈ unit.placedBlocks graphs) (hexit : p.exit? unit.name = some exit)
    (hfalls : exit.fallsThrough = true) :
    (edits.apply unit.lines).countP (definesLabel (fallthroughLabel p.block.tail.line)) =
        unit.lines.countP (definesLabel (fallthroughLabel p.block.tail.line)) +
          (if unit.lineAfter p.block < unit.lines.length then 1 else 0) ∧
      ∀ q ∈ unit.placedBlocks graphs, q.block.address = p.block.last.address + 1 →
        unit.lineAfter p.block < unit.lines.length ∧
        ∃ front labels first back, edits.passages unit.lines =
            front ++ ⟨.before, q.block.line, fallthroughLabel p.block.tail.line ++ ":"⟩ ::
              (labels ++ first :: back) ∧
          (∀ text ∈ q.opening unit.name, ⟨.before, q.block.line, text⟩ ∈ front) ∧
          (∀ passage ∈ labels,
            ∃ n, passage = ⟨.before, q.block.line, fallthroughLabel n ++ ":"⟩) ∧
          SourceUnit.BeginsBlock unit.name register q first ∧
          ∀ passage ∈ back, passage.line = q.block.line → passage.origin ≠ .before := by
  have hparsed := hread unit hunit
  have hplaces := hplaced.places hread hnames hunit
  obtain ⟨hexits, hat, hdata⟩ := SourceUnit.relocate_cases hrelocate
  refine ⟨hplaces.countP_apply hparsed hname hregister hat hdata hexits hp hexit hfalls, ?_⟩
  intro q hq haddress
  have hline := hplaces.lineAfter_eq hparsed hq haddress
  obtain ⟨v, hv⟩ := hplaces.isBlock q hq
  exact ⟨hline ▸ hv.line_lt hparsed List.mem_cons_self,
    hplaces.exists_label_passage hparsed hat hp hexit hfalls hq hline⟩

/-- The theorem applied to the test of `twoArms`, whose exit falls through to the call behind it. -/
theorem countP_fallthroughLabel_twoArms : ∃ edits stats p exit,
    (∀ unit ∈ [twoArms], unit.Parsed) ∧ ([twoArms].map (·.name)).Nodup ∧
      ({ units := [twoArms] } : Program).IsPlacement twoArmsPlaced ∧
      '\n' ∉ twoArms.name.toList ∧ '\n' ∉ ("r5" : String).toList ∧
      (twoArms.relocate "r5" twoArmsPlaced).run.value = .ok (edits, stats) ∧
      p ∈ twoArms.placedBlocks twoArmsPlaced ∧ p.exit? twoArms.name = some exit ∧
      exit.fallsThrough = true ∧ p.block.tail.line = 4 ∧
      (edits.apply twoArms.lines).countP
        (definesLabel (fallthroughLabel p.block.tail.line)) = 1 := by
  obtain ⟨stats, hrelocate⟩ := relocate_twoArms
  have hnames : ([twoArms].map (·.name)).Nodup := List.nodup_singleton _
  have hname : '\n' ∉ twoArms.name.toList := by decide
  have hregister : '\n' ∉ ("r5" : String).toList := by decide
  have hblocks :
      ((twoArms.placedBlocks twoArmsPlaced).any fun p =>
        p.block.tail.line == 4 && (p.exit? twoArms.name).any Exit.fallsThrough &&
          decide (twoArms.lineAfter p.block < twoArms.lines.length)) = true ∧
      twoArms.lines.countP (definesLabel (fallthroughLabel 4)) = 0 := by
    decide +kernel
  obtain ⟨hsome, hsource⟩ := hblocks
  obtain ⟨p, hp, hall⟩ := List.any_eq_true.1 hsome
  rw [Bool.and_eq_true, Bool.and_eq_true, beq_iff_eq, decide_eq_true_iff] at hall
  obtain ⟨⟨hline, hexit⟩, hafter⟩ := hall
  obtain ⟨exit, hexit, hfalls⟩ := (Option.any_eq_true _ _).1 hexit
  have hmain := (@countP_fallthroughLabel { units := [twoArms] } _ _ _ _ _ _ _ parsed_twoArms hnames
    isPlacement_twoArms (List.mem_singleton_self _) hname hregister hrelocate hp hexit hfalls).1
  refine ⟨_, stats, p, exit, parsed_twoArms, hnames, isPlacement_twoArms, hname, hregister,
    hrelocate, hp, hexit, hfalls, hline, ?_⟩
  rw [hmain, if_pos hafter, hline, hsource]

/-- Its last line is a conditional branch. -/
def lastBranch : SourceUnit :=
  (SourceUnit.parse "t.s"
    "\t.type\tf, %function\nf:\n\tb\t.L2\n.L1:\n\tbx\tlr\n.L2:\n\tcmp\tr0, #0\n\tbne\t.L1\n").value

/-- The last block is in RAM. -/
def lastBranchPlaced : List Graph :=
  (RamOverlay.placeForced { forced := [⟨"t.s", 5⟩] } (builtGraphs [lastBranch])).value.1

/-- The label of the last exit is lost, though the exit may go there. -/
theorem fallthroughLabel_lost_lastBranch : ∃ edits stats p exit,
    lastBranch.NoSlots ∧ ([lastBranch].map (·.name)).Nodup ∧
      ({ units := [lastBranch] } : Program).IsPlacement lastBranchPlaced ∧
      (lastBranch.relocate "r5" lastBranchPlaced).run.value = .ok (edits, stats) ∧
      p ∈ lastBranch.placedBlocks lastBranchPlaced ∧ p.exit? lastBranch.name = some exit ∧
      exit.fallsThrough = true ∧
      (edits.apply lastBranch.lines).countP
        (definesLabel (fallthroughLabel p.block.tail.line)) = 0 := by
  have hread : ∀ unit ∈ [lastBranch], unit.Parsed := by
    intro unit hunit
    rw [List.mem_singleton.1 hunit]
    exact .parse _ _
  have hplaced : ({ units := [lastBranch] } : Program).IsPlacement lastBranchPlaced :=
    (isPlacement_builtGraphs hread (List.cons_ne_nil _ _)).placeForced _
  have hblocks :
      (lastBranch.placedBlocks lastBranchPlaced).findSome? (·.failure? lastBranch.name) = none ∧
      ((lastBranch.placedBlocks lastBranchPlaced).any fun p =>
        (p.exit? lastBranch.name).any Exit.fallsThrough &&
          ((lastBranch.relocationEdits "r5" (lastBranch.placedBlocks lastBranchPlaced)).apply
            lastBranch.lines).countP
              (definesLabel (fallthroughLabel p.block.tail.line)) == 0) = true := by
    decide +kernel
  obtain ⟨hexits, hsome⟩ := hblocks
  obtain ⟨stats, hrelocate⟩ := @SourceUnit.exists_value_relocate _ "r5" _ hexits
  obtain ⟨p, hp, hall⟩ := List.any_eq_true.1 hsome
  obtain ⟨hexit, hlost⟩ := Bool.and_eq_true_iff.1 hall
  obtain ⟨exit, hexit, hfalls⟩ := (Option.any_eq_true _ _).1 hexit
  exact ⟨_, stats, p, exit, SourceUnit.noSlots_parse _ _, List.nodup_singleton _, hplaced,
    hrelocate, hp, hexit, hfalls, beq_iff_eq.1 hlost⟩

end Program

end RamOverlay
