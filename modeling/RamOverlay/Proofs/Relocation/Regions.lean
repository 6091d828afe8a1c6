import RamOverlay.Proofs.Relocation.EntryLabels
import RamOverlay.Proofs.Relocation.Rewritten

/-!
# Where the code of a relocated unit lands

Relocation puts a block in RAM between two section switches. Other texts come before and after it on
the same lines, so what counts is their order.

* **`Passage.switch?`** and **`Passage.located`**: the switches, and in which region a passage
  lands.
* **`Alternates`**: a stretch that begins in one region and ends in one, changes it at every switch,
  and has every passage where it should be. Stretches compose.
* **`SourceUnit.PlacedRight`**: where a passage should be.
* **`SourceUnit.Places.alternates_line`**: the passages of one line, from the region before it to
  the region behind it; **`alternates_passages`**: those of all lines.
-/

namespace RamOverlay

/-! ## Switches -/

/-- The region to which a section switch leads: RAM or flash. -/
def EditList.switchOf? (text : String) : Option Bool :=
  if text = ".section " ++ ramSection ++ ", \"x\"\n.align 2" then some true
  else if text = ".text\n.align 2" then some false
  else none

/-- A text that does not begin with a dot switches nothing. -/
theorem EditList.switchOf?_of_head {text : String} (h : text.toList.head? ≠ some '.') :
    switchOf? text = none := by
  unfold switchOf?
  split
  next heq => exact absurd (heq ▸ rfl) h
  next =>
    split
    next heq => exact absurd (heq ▸ rfl) h
    next => rfl

namespace Passage

/-- The region to which a text that was put in switches. -/
def switch? (passage : Passage) : Option Bool :=
  if passage.origin = .source then none else EditList.switchOf? passage.text

/-- The passages with whether they land in RAM. -/
def located (inRam : Bool) : List Passage → List (Passage × Bool)
  | [] => []
  | passage :: rest =>
    let inRam := passage.switch?.getD inRam
    (passage, inRam) :: located inRam rest

theorem switch?_eq_none {passage : Passage} (h : EditList.switchOf? passage.text = none) :
    passage.switch? = none := by
  rw [switch?, h, ite_self]

end Passage

/-- From one region to the other: it changes at each switch, and every passage is as it should be in
its region. -/
inductive Alternates (right : Passage → Bool → Prop) : Bool → List Passage → Bool → Prop where
  | nil (inRam : Bool) : Alternates right inRam [] inRam
  | keep {inRam last : Bool} {passage : Passage} {rest : List Passage}
      (hnone : passage.switch? = none) (hright : right passage inRam)
      (h : Alternates right inRam rest last) : Alternates right inRam (passage :: rest) last
  | switch {inRam last : Bool} {passage : Passage} {rest : List Passage}
      (hswitch : passage.switch? = some (!inRam)) (hright : right passage (!inRam))
      (h : Alternates right (!inRam) rest last) : Alternates right inRam (passage :: rest) last

namespace Alternates

variable {right : Passage → Bool → Prop} {inRam mid last : Bool} {passages rest : List Passage}
  {passage : Passage}

/-- Stretches compose. -/
theorem append (h : Alternates right inRam passages mid) (h' : Alternates right mid rest last) :
    Alternates right inRam (passages ++ rest) last := by
  induction h with
  | nil => exact h'
  | keep hnone hright _ ih => exact .keep hnone hright (ih h')
  | switch hswitch hright _ ih => exact .switch hswitch hright (ih h')

/-- A stretch without switches. -/
theorem of_none (h : ∀ passage ∈ passages, passage.switch? = none ∧ right passage inRam) :
    Alternates right inRam passages inRam := by
  induction passages with
  | nil => exact .nil inRam
  | cons passage rest ih =>
    obtain ⟨⟨hnone, hright⟩, hrest⟩ := List.forall_mem_cons.1 h
    exact .keep hnone hright (ih hrest)

theorem single (hswitch : passage.switch? = some (!inRam)) (hright : right passage (!inRam)) :
    Alternates right inRam [passage] (!inRam) :=
  .switch hswitch hright (.nil _)

/-- All pieces of a stretch are right where they are. -/
theorem right_of_mem_located (h : Alternates right inRam passages last) :
    ∀ entry ∈ Passage.located inRam passages, right entry.1 entry.2 := by
  induction h with
  | nil => exact List.forall_mem_nil _
  | keep hnone hright _ ih =>
    rw [Passage.located, hnone]
    exact List.forall_mem_cons.2 ⟨hright, ih⟩
  | switch hswitch hright _ ih =>
    rw [Passage.located, hswitch]
    exact List.forall_mem_cons.2 ⟨hright, ih⟩

/-- Switches into RAM and out of it take turns. -/
theorem exists_switches (h : Alternates right inRam passages last) :
    ∃ n, (if inRam then [true] else []) ++ passages.filterMap Passage.switch? =
      (List.replicate n [true, false]).flatten ++ if last then [true] else [] := by
  induction h with
  | nil inRam => exact ⟨0, List.append_nil _⟩
  | keep hnone _ _ ih =>
    rw [List.filterMap_cons_none hnone]
    exact ih
  | @switch inRam _ _ _ hswitch _ _ ih =>
    obtain ⟨n, hn⟩ := ih
    rw [List.filterMap_cons_some hswitch]
    -- a switch back completes a turn, one into RAM begins it
    cases inRam with
    | false => exact ⟨n, hn⟩
    | true =>
      refine ⟨n + 1, ?_⟩
      rw [List.replicate_succ, List.flatten_cons, List.append_assoc, ← hn]
      rfl

end Alternates

/-! ## The texts that relocation puts in -/

theorem Text.head?_append {s : String} {c : Char} (h : s.toList.head? = some c) (t : String) :
    (s ++ t).toList.head? = some c := by
  rw [String.toList_append, List.head?_append, h, Option.some_or]

theorem Exit.head?_code (exit : Exit) (register : String) (line : Nat) :
    (exit.code register line).toList.head? = some ' ' := by
  -- each kind of code begins with its comment, four blanks in front
  cases exit with
  | compare =>
    unfold code
    iterate 4 refine Text.head?_append ?_ _
    decide
  | always =>
    unfold code
    iterate 2 refine Text.head?_append ?_ _
    decide
  | fallthrough =>
    unfold code
    iterate 2 refine Text.head?_append ?_ _
    decide
  | conditional =>
    unfold code
    iterate 2 refine Text.head?_append ?_ _
    decide

theorem Exit.head?_fallthroughLabel (line : Nat) :
    (fallthroughLabel line ++ ":").toList.head? = some 'f' :=
  Text.head?_append (Text.head?_append (by decide) _) _

namespace PlacedBlock

variable {placed : PlacedBlock} {unit register text : String} {line : Nat}

theorem head?_mark : (placed.mark unit).toList.head? = some '#' :=
  Text.head?_append (Text.head?_append (Text.head?_append (by decide) _) _) _

theorem head?_of_mem_replacements (h : text ∈ placed.replacements register line) :
    text.toList.head? = some ' ' := by
  -- all but the tail call begin with a load, four blanks in front
  have hload : ∀ rest : String, ("    ldr " ++ rest).toList.head? = some ' ' :=
    Text.head?_append (by decide)
  rcases mem_replacements.1 h with ⟨insn, -, -, htext⟩ |
    ⟨-, ⟨insn, -, -, htext⟩ | ⟨-, htext⟩⟩
  · unfold Instruction.loadText? at htext
    obtain ⟨_, -, rfl⟩ := Option.map_eq_some_iff.1 htext
    iterate 7 refine Text.head?_append ?_ _
    exact hload _
  · unfold Instruction.ramText? at htext
    split at htext
    · obtain ⟨_, -, rfl⟩ := Option.map_eq_some_iff.1 htext
      iterate 4 refine Text.head?_append ?_ _
      exact hload _
    · split at htext
      · obtain ⟨_, -, rfl⟩ := Option.map_eq_some_iff.1 htext
        iterate 2 refine Text.head?_append ?_ _
        exact hload _
      · cases htext
  · unfold Instruction.tailCallText? at htext
    split at htext
    · obtain ⟨_, -, rfl⟩ := Option.map_eq_some_iff.1 htext
      exact Text.head?_append (Text.head?_append (by decide) _) _
    · cases htext

end PlacedBlock

/-! ## The passages of a line -/

namespace SourceUnit

variable {unit : SourceUnit} {routines : RoutineLabels} {register text : String}
  {placed : List PlacedBlock} {p q : PlacedBlock} {line : Nat} {passage : Passage} {inRam : Bool}

/-- A passage lands where it should: code of a block and its long exit in the region of the block,
and the label of a long exit in that of the block that begins behind it. -/
structure PlacedRight (unit : SourceUnit) (register : String) (placed : List PlacedBlock)
    (passage : Passage) (inRam : Bool) : Prop where
  code : passage.origin = .source ∨ passage.origin = .inPlace →
    ∀ p ∈ placed, p.StandsOn passage.line → inRam = p.inRam
  exit : ∀ p ∈ placed, ∀ exit, p.exit? unit.name = some exit →
    passage = ⟨.after, p.block.tail.line, exit.code register p.block.tail.line⟩ → inRam = p.inRam
  label : ∀ n, passage = ⟨.before, passage.line, Exit.fallthroughLabel n ++ ":"⟩ →
    (inRam = true ↔ ∃ q ∈ placed, q.block.line = passage.line ∧ q.inRam = true)

namespace PlacedRight

theorem before (htext : text.toList.head? ≠ some 'f') :
    unit.PlacedRight register placed ⟨.before, line, text⟩ inRam where
  code horigin := by rcases horigin with heq | heq <;> cases heq
  exit _ _ _ _ heq := by cases heq
  label n heq := by
    have hlabel : text = Exit.fallthroughLabel n ++ ":" := congrArg Passage.text heq
    exact absurd (hlabel ▸ Exit.head?_fallthroughLabel n) htext

theorem after (htext : text.toList.head? ≠ some ' ') :
    unit.PlacedRight register placed ⟨.after, line, text⟩ inRam where
  code horigin := by rcases horigin with heq | heq <;> cases heq
  exit p _ exit _ heq := by
    have hcode : text = exit.code register p.block.tail.line := congrArg Passage.text heq
    exact absurd (hcode ▸ exit.head?_code register _) htext
  label _ heq := by cases heq

/-- Where no block begins, labels are in flash. -/
theorem label_of_ne (hnone : ∀ q ∈ placed, q.block.line ≠ line) :
    unit.PlacedRight register placed ⟨.before, line, text⟩ false where
  code horigin := by rcases horigin with heq | heq <;> cases heq
  exit _ _ _ _ heq := by cases heq
  label _ _ := by
    refine iff_of_false Bool.false_ne_true ?_
    rintro ⟨q, hq, hline, -⟩
    exact hnone q hq hline

theorem source_of_not_standsOn (hnone : ∀ q ∈ placed, ¬ q.StandsOn line) :
    unit.PlacedRight register placed ⟨.source, line, text⟩ inRam where
  code _ q hq hon := absurd hon (hnone q hq)
  exit _ _ _ _ heq := by cases heq
  label _ heq := by cases heq

variable (hdisjoint : DisjointLines placed) (hp : p ∈ placed)
include hdisjoint hp

/-- Code on a line of a block. -/
theorem middle {origin : Origin} (horigin : origin = .source ∨ origin = .inPlace)
    (hon : p.StandsOn line) :
    unit.PlacedRight register placed ⟨origin, line, text⟩ p.inRam where
  code _ q hq hon' := by rw [hdisjoint.eq_of_standsOn hp hq hon hon']
  exit _ _ _ _ heq := by rcases horigin with rfl | rfl <;> cases heq
  label _ heq := by rcases horigin with rfl | rfl <;> cases heq

/-- The long exit of a block. -/
theorem closing (hline : p.block.tail.line = line) :
    unit.PlacedRight register placed ⟨.after, line, text⟩ p.inRam where
  code horigin := by rcases horigin with heq | heq <;> cases heq
  exit q hq _ _ heq := by
    have hline' : line = q.block.tail.line := congrArg Passage.line heq
    rw [hdisjoint.eq_of_standsOn hp hq (hline ▸ p.standsOn_tail) (hline' ▸ q.standsOn_tail)]
  label _ heq := by cases heq

/-- A label before the first line of a block. -/
theorem opening (hline : p.block.line = line) :
    unit.PlacedRight register placed ⟨.before, line, text⟩ p.inRam where
  code horigin := by rcases horigin with heq | heq <;> cases heq
  exit _ _ _ _ heq := by cases heq
  label _ _ := by
    refine ⟨fun hram => ⟨p, hp, hline, hram⟩, ?_⟩
    rintro ⟨q, hq, hline', hram⟩
    have hline' : q.block.line = line := hline'
    rwa [hdisjoint.eq_of_standsOn hp hq (hline ▸ p.standsOn_line) (hline' ▸ q.standsOn_line)]

end PlacedRight

/-- Whether the text before a line is in RAM: the line is behind the first line of a block in RAM,
and not behind its last one. -/
def ramBefore (placed : List PlacedBlock) (line : Nat) : Bool :=
  placed.any fun p => p.inRam && decide (p.block.line < line ∧ line ≤ p.block.tail.line)

theorem ramBefore_eq_true : ramBefore placed line = true ↔
    ∃ p ∈ placed, p.inRam = true ∧ p.block.line < line ∧ line ≤ p.block.tail.line := by
  unfold ramBefore
  simp

/-- A line outside of all blocks does not change the memory. -/
theorem ramBefore_succ (h : ∀ p ∈ placed, ¬ p.StandsOn line) :
    ramBefore placed (line + 1) = ramBefore placed line := by
  rw [Bool.eq_iff_iff, ramBefore_eq_true, ramBefore_eq_true]
  refine exists_congr fun p => and_congr_right fun hp => and_congr_right fun _ => ?_
  have hfirst := PlacedBlock.line_ne (h p hp)
  have htail := PlacedBlock.tail_line_ne (h p hp)
  omega

namespace Places

variable (h : unit.Places routines placed) (hparsed : unit.Parsed) (hslots : unit.NoSlots)
include h hparsed hslots

section Block

variable (hp : p ∈ placed) (hon : p.StandsOn line)
include hp hon

/-- Within a block in RAM the memory is RAM from behind its first line on. -/
theorem ramBefore_eq : ramBefore placed line = (p.inRam && decide (p.block.line < line)) := by
  obtain ⟨hfirst, hlast⟩ := h.line_mem hparsed hslots hp hon
  rw [Bool.eq_iff_iff, ramBefore_eq_true, Bool.and_eq_true, decide_eq_true_iff]
  refine ⟨?_, fun hram => ⟨p, hp, hram.1, hram.2, hlast⟩⟩
  rintro ⟨q, hq, hram, hlt, hle⟩
  by_cases heq : p = q
  · exact heq ▸ ⟨hram, hlt⟩
  · -- the line is in both blocks, so neither is behind the other
    have := h.lt_or_lt hparsed hp hq heq
    omega

/-- Behind a line of such a block the memory is RAM as long as the tail is still to come. -/
theorem ramBefore_succ_eq :
    ramBefore placed (line + 1) = (p.inRam && decide (line < p.block.tail.line)) := by
  obtain ⟨hfirst, hlast⟩ := h.line_mem hparsed hslots hp hon
  rw [Bool.eq_iff_iff, ramBefore_eq_true, Bool.and_eq_true, decide_eq_true_iff]
  refine ⟨?_, fun hram => ⟨p, hp, hram.1, Nat.lt_succ_of_le hfirst, hram.2⟩⟩
  rintro ⟨q, hq, hram, hlt, hle⟩
  by_cases heq : p = q
  · exact heq ▸ ⟨hram, hle⟩
  · have := h.lt_or_lt hparsed hp hq heq
    omega

/-- A label stands before the first line of a block only. -/
theorem labelsBefore_eq_nil (hfirst : p.block.line ≠ line) :
    unit.labelsBefore placed line = [] := by
  refine List.eq_nil_iff_forall_not_mem.2 fun text htext => ?_
  rcases h.labelsBefore_cases hparsed hslots htext with ⟨q, hq, hline⟩ | hbehind
  · obtain rfl := (h.disjointLines hparsed).eq_of_standsOn hp hq hon (hline ▸ q.standsOn_line)
    exact hfirst hline
  · obtain ⟨insn, hinsn, hline⟩ := hon
    exact Nat.ne_of_lt (hbehind _ (h.mem_instructions hparsed hp hinsn)) hline

end Block

omit hslots in
/-- Behind all entries the text is in flash. -/
theorem ramBefore_of_behind (hbehind : ∀ insn ∈ unit.instructions, insn.line < line) :
    ramBefore placed line = false := by
  rw [Bool.eq_false_iff, Ne, ramBefore_eq_true]
  rintro ⟨p, hp, -, -, hle⟩
  exact absurd (hbehind _ (h.mem_instructions hparsed hp p.block.tail_mem)) (Nat.not_lt.2 hle)

end Places

/-! ### The stretches of a line -/

/-- What comes before a line switches nothing and is right in both memories. -/
theorem alternates_before {texts : List String} (inRam : Bool) (line : Nat)
    (h : ∀ text ∈ texts, EditList.switchOf? text = none ∧ text.toList.head? ≠ some 'f') :
    Alternates (unit.PlacedRight register placed) inRam
      (texts.map fun text => ⟨.before, line, text⟩) inRam := by
  refine .of_none fun passage hpassage => ?_
  obtain ⟨text, htext, rfl⟩ := List.mem_map.1 hpassage
  exact ⟨Passage.switch?_eq_none (h text htext).1, .before (h text htext).2⟩

/-- The texts that open a block lead to its region. -/
theorem alternates_opening (p : PlacedBlock) (line : Nat) :
    Alternates (unit.PlacedRight register placed) false
      ((p.opening unit.name).map fun text => ⟨.before, line, text⟩) p.inRam := by
  have hcomment : ∀ text : String, text.toList.head? = some '#' →
      EditList.switchOf? text = none ∧ text.toList.head? ≠ some 'f' := fun text htext =>
    ⟨EditList.switchOf?_of_head (by simp [htext]), by simp [htext]⟩
  -- of the texts before a block only the directive of the RAM section switches
  have hsection : Alternates (unit.PlacedRight register placed) false
      ((if p.inRam then [".section " ++ EditList.ramSection ++ ", \"x\"\n.align 2"] else []).map
        fun text => ⟨.before, line, text⟩) p.inRam := by
    cases p.inRam with
    | false => exact .nil false
    | true => exact .single (by rfl) (.before (by decide))
  unfold PlacedBlock.opening
  rw [← List.singleton_append, List.map_append, List.map_append, List.map_append]
  refine (alternates_before _ _ ?_).append ((alternates_before _ _ ?_).append
    (hsection.append (alternates_before _ _ ?_)))
  · exact List.forall_mem_singleton.2 (by decide)
  · have hcount := hcomment ("# INSTRUMENTED " ++ Text.decimal p.block.line)
      (Text.head?_append (by decide) _)
    exact forall_mem_ite (List.forall_mem_singleton.2 hcount) (List.forall_mem_nil _)
  · have hmark := hcomment (p.mark unit.name) PlacedBlock.head?_mark
    exact forall_mem_ite (List.forall_mem_nil _) (List.forall_mem_singleton.2 hmark)

/-- Neither does what comes behind it. -/
theorem alternates_after {texts : List String} (inRam : Bool) (line : Nat)
    (h : ∀ text ∈ texts, EditList.switchOf? text = none ∧ text.toList.head? ≠ some ' ') :
    Alternates (unit.PlacedRight register placed) inRam
      (texts.map fun text => ⟨.after, line, text⟩) inRam := by
  refine .of_none fun passage hpassage => ?_
  obtain ⟨text, htext, rfl⟩ := List.mem_map.1 hpassage
  exact ⟨Passage.switch?_eq_none (h text htext).1, .after (h text htext).2⟩

/-- The mark of a block may stand behind a label, in any region. -/
theorem alternates_mark (p : PlacedBlock) (line : Nat) (inRam : Bool) :
    Alternates (unit.PlacedRight register placed) inRam
      ((if p.block.line = line ∧ p.block.first.isLabel = true then [p.mark unit.name]
        else []).map fun text => ⟨.after, line, text⟩) inRam := by
  refine alternates_after _ _ fun text htext => ?_
  split at htext
  · rw [List.mem_singleton.1 htext, PlacedBlock.head?_mark]
    exact ⟨EditList.switchOf?_of_head (by rw [PlacedBlock.head?_mark]; decide), by decide⟩
  · cases htext

/-- The labels before a line, in one region. -/
theorem alternates_labels {inRam : Bool} (hright : ∀ text,
    unit.PlacedRight register placed ⟨.before, line, text⟩ inRam) :
    Alternates (unit.PlacedRight register placed) inRam
      ((unit.labelsBefore placed line).map fun text => ⟨.before, line, text⟩) inRam := by
  refine .of_none fun passage hpassage => ?_
  obtain ⟨text, htext, rfl⟩ := List.mem_map.1 hpassage
  obtain ⟨p, -, _, -, -, -, rfl⟩ := mem_labelsBefore.1 htext
  have hhead := Exit.head?_fallthroughLabel p.block.tail.line
  exact ⟨Passage.switch?_eq_none (EditList.switchOf?_of_head (by rw [hhead]; decide)), hright _⟩

section Disjoint

variable (hdisjoint : DisjointLines placed) (hp : p ∈ placed)
include hdisjoint hp

/-- A line of a block, or what stands in its place. -/
theorem alternates_middle (hon : p.StandsOn line) (text : String) :
    Alternates (unit.PlacedRight register placed) p.inRam
      ((p.change unit.name register line).middle line text) p.inRam := by
  refine .of_none fun passage hpassage => ?_
  rcases LineEdits.cases_of_mem_middle hpassage with rfl | ⟨text, htext, rfl⟩
  · exact ⟨rfl, .middle hdisjoint hp (.inl rfl) hon⟩
  · rw [PlacedBlock.inPlace_change] at htext
    have hhead := PlacedBlock.head?_of_mem_replacements htext
    exact ⟨Passage.switch?_eq_none (EditList.switchOf?_of_head (by rw [hhead]; decide)),
      .middle hdisjoint hp (.inr rfl) hon⟩

/-- The texts behind a block lead out of RAM, its long exit before. -/
theorem alternates_closing (hline : p.block.tail.line = line) :
    Alternates (unit.PlacedRight register placed) p.inRam
      ((p.closing unit.name register).map fun text => ⟨.after, line, text⟩) false := by
  -- the long exit stays in the region of its block
  have hcode : Alternates (unit.PlacedRight register placed) p.inRam
      (((p.exit? unit.name).map fun exit => exit.code register p.block.tail.line).toList.map
        fun text => ⟨.after, line, text⟩) p.inRam := by
    refine .of_none fun passage hpassage => ?_
    obtain ⟨text, htext, rfl⟩ := List.mem_map.1 hpassage
    obtain ⟨exit, -, rfl⟩ := Option.map_eq_some_iff.1 (Option.mem_toList.1 htext)
    have hhead := exit.head?_code register p.block.tail.line
    exact ⟨Passage.switch?_eq_none (EditList.switchOf?_of_head (by rw [hhead]; decide)),
      .closing hdisjoint hp hline⟩
  -- the directive behind it leads back, if the block is in RAM
  have hleave : Alternates (unit.PlacedRight register placed) p.inRam
      ((if p.inRam then [".text\n.align 2"] else []).map fun text => ⟨.after, line, text⟩)
      false := by
    cases p.inRam with
    | false => exact .nil false
    | true => exact .single (by rfl) (.after (by decide))
  unfold PlacedBlock.closing
  rw [List.map_append, List.map_append]
  refine (alternates_after _ _ fun text htext => ?_).append (hcode.append hleave)
  split at htext
  · rw [List.mem_singleton.1 htext]
    decide
  · cases htext

end Disjoint

namespace Places

variable (h : unit.Places routines placed) (hparsed : unit.Parsed) (hslots : unit.NoSlots)
include h hparsed hslots

/-- What stands before a line of a block leads into its region, at the first of its lines. -/
theorem alternates_before_block (hp : p ∈ placed) (hon : p.StandsOn line) :
    Alternates (unit.PlacedRight register placed) (p.inRam && decide (p.block.line < line))
      (((p.change unit.name register line).before ++ unit.labelsBefore placed line).map
        fun text => ⟨.before, line, text⟩) p.inRam := by
  obtain ⟨hfirst, -⟩ := h.line_mem hparsed hslots hp hon
  rw [PlacedBlock.before_change]
  by_cases heq : p.block.line = line
  · rw [if_pos heq, List.map_append, decide_eq_false (by omega), Bool.and_false]
    exact (alternates_opening p line).append
      (alternates_labels fun _ => .opening (h.disjointLines hparsed) hp heq)
  · rw [if_neg heq, h.labelsBefore_eq_nil hparsed hslots hp hon heq, decide_eq_true (by omega),
      Bool.and_true]
    exact .nil _

/-- What stands behind a line of a block leads out of its region, at the last of its lines. -/
theorem alternates_behind_block (hp : p ∈ placed) (hon : p.StandsOn line) :
    Alternates (unit.PlacedRight register placed) p.inRam
      ((p.change unit.name register line).after.map fun text => ⟨.after, line, text⟩)
      (p.inRam && decide (line < p.block.tail.line)) := by
  obtain ⟨-, hlast⟩ := h.line_mem hparsed hslots hp hon
  rw [PlacedBlock.after_change, List.map_append]
  by_cases heq : p.block.tail.line = line
  · rw [if_pos heq, decide_eq_false (by omega), Bool.and_false]
    exact (alternates_closing (h.disjointLines hparsed) hp heq).append
      (alternates_mark p line false)
  · rw [if_neg heq, decide_eq_true (by omega), Bool.and_true]
    exact alternates_mark p line p.inRam

/-- The passages of a line lead from the region before it to the region behind it. -/
theorem alternates_line (line : Nat) (text : String) :
    Alternates (unit.PlacedRight register placed) (ramBefore placed line)
      ((unit.changesAt register placed line).passages line text) (ramBefore placed (line + 1)) := by
  have hdisjoint := h.disjointLines hparsed
  by_cases hline : ∃ p ∈ placed, p.StandsOn line
  · obtain ⟨p, hp, hon⟩ := hline
    rw [changesAt_of_standsOn hdisjoint hp hon, h.ramBefore_eq hparsed hslots hp hon,
      h.ramBefore_succ_eq hparsed hslots hp hon]
    exact (h.alternates_before_block hparsed hslots hp hon).append
      ((alternates_middle hdisjoint hp hon text).append
        (h.alternates_behind_block hparsed hslots hp hon))
  · have hnone : ∀ p ∈ placed, ¬ p.StandsOn line := fun p hp hon => hline ⟨p, hp, hon⟩
    rw [changesAt_of_not_standsOn hnone, ramBefore_succ hnone]
    refine Alternates.append ?_ (Alternates.keep rfl (.source_of_not_standsOn hnone) (.nil _))
    cases hlabels : unit.labelsBefore placed line with
    | nil => exact .nil _
    | cons text labels =>
      -- a label where no block begins stands behind all entries
      have hflash : ramBefore placed line = false := by
        rcases h.labelsBefore_cases hparsed hslots (hlabels ▸ List.mem_cons_self) with
          ⟨q, hq, heq⟩ | hbehind
        · exact absurd (heq ▸ q.standsOn_line) (hnone q hq)
        · exact h.ramBefore_of_behind hparsed hbehind
      rw [← hlabels, hflash]
      exact alternates_labels fun _ => .label_of_ne fun q hq => PlacedBlock.line_ne (hnone q hq)

/-- The passages of a stretch of lines. -/
theorem alternates_passagesFrom {edits : EditList}
    (hat : ∀ line, edits.atLine line = unit.changesAt register placed line) (line : Nat)
    (source : List String) :
    Alternates (unit.PlacedRight register placed) (ramBefore placed line)
      (edits.passagesFrom line source) (ramBefore placed (line + source.length)) := by
  induction source generalizing line with
  | nil => exact .nil _
  | cons text source ih =>
    rw [EditList.passagesFrom, hat, List.length_cons, Nat.add_comm source.length, ← Nat.add_assoc]
    exact (h.alternates_line hparsed hslots line text).append (ih (line + 1))

/-- The passages of the whole text, from flash to flash. -/
theorem alternates_passages {edits : EditList}
    (hat : ∀ line, edits.atLine line = unit.changesAt register placed line) :
    Alternates (unit.PlacedRight register placed) false (edits.passages unit.lines) false := by
  have hstart : ramBefore placed 0 = false := by
    rw [Bool.eq_false_iff, Ne, ramBefore_eq_true]
    rintro ⟨p, -, -, hlt, -⟩
    exact Nat.not_lt_zero _ hlt
  have hend : ramBefore placed (0 + unit.lines.length) = false :=
    h.ramBefore_of_behind hparsed (by rw [Nat.zero_add]; exact hparsed.line_lt)
  have hpassages := h.alternates_passagesFrom hparsed hslots hat 0 unit.lines
  rwa [hstart, hend] at hpassages

end Places

end SourceUnit

namespace Program

variable {program : Program} {graphs : List Graph} {unit : SourceUnit} {register : String}
  {edits : EditList} {stats : RelocationStats}

/-- The text of a relocated unit is made of passages, and these land in the regions in which their
blocks are placed. The switches that were put in take turns, and the last of them leaves RAM. -/
theorem lands_where_placed (hread : ∀ unit ∈ program.units, unit.Parsed)
    (hnames : (program.units.map (·.name)).Nodup) (hplaced : program.IsPlacement graphs)
    (hunit : unit ∈ program.units) (hslots : unit.NoSlots)
    (hrelocate : (unit.relocate register graphs).run.value = .ok (edits, stats)) :
    (∀ entry ∈ Passage.located false (edits.passages unit.lines),
      unit.PlacedRight register (unit.placedBlocks graphs) entry.1 entry.2) ∧
    (∃ n, (edits.passages unit.lines).filterMap Passage.switch? =
      (List.replicate n [true, false]).flatten) ∧
    unit.render edits = Text.joinWith "\n"
      ((edits.passages unit.lines).flatMap Passage.lines ++ [".data"]) ++ "\n" := by
  have hparsed := hread unit hunit
  have hplaces := hplaced.places hread hnames hunit
  obtain ⟨-, hat, hdata⟩ := SourceUnit.relocate_cases hrelocate
  have halternates := hplaces.alternates_passages hparsed hslots hat
  obtain ⟨n, hn⟩ := halternates.exists_switches
  refine ⟨halternates.right_of_mem_located, ⟨n, ?_⟩, unit.render_eq_passages hdata⟩
  simpa using hn

/-- The theorem applied to `twoArms`: two blocks are in RAM, so there are two switches each way. -/
theorem lands_where_placed_twoArms : ∃ edits stats,
    (∀ unit ∈ [twoArms], unit.Parsed) ∧ ([twoArms].map (·.name)).Nodup ∧
      ({ units := [twoArms] } : Program).IsPlacement twoArmsPlaced ∧ twoArms.NoSlots ∧
      (twoArms.relocate "r5" twoArmsPlaced).run.value = .ok (edits, stats) ∧
      (∀ entry ∈ Passage.located false (edits.passages twoArms.lines),
        twoArms.PlacedRight "r5" (twoArms.placedBlocks twoArmsPlaced) entry.1 entry.2) ∧
      (edits.passages twoArms.lines).filterMap Passage.switch? = [true, false, true, false] := by
  obtain ⟨stats, hrelocate⟩ := relocate_twoArms
  have hnames : ([twoArms].map (·.name)).Nodup := List.nodup_singleton _
  have hslots : twoArms.NoSlots := SourceUnit.noSlots_parse _ _
  have hmain := @lands_where_placed { units := [twoArms] } _ _ _ _ _ parsed_twoArms hnames
    isPlacement_twoArms (List.mem_singleton_self _) hslots hrelocate
  exact ⟨_, stats, parsed_twoArms, hnames, isPlacement_twoArms, hslots, hrelocate, hmain.1, by
    decide +kernel⟩

end Program

end RamOverlay
