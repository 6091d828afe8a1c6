import RamOverlay.Proofs.Exit.Transfer
import RamOverlay.Proofs.Keyed

/-!
# What edits change, line by line

Edits are recorded in a table, but what counts is the change to each line. Edits that are recorded
later come behind those of the same line that were there before.

* **`EditList.Adds`**: what one step changes about every line. Steps compose (`Adds.trans`).
* **`LineEdits.concat`**: the changes of many steps to one line; `concat_map_eq` is about steps of
  which only one touches the line, **`within_concat_map`** about a single one of them.
* **`EditList.atLine_append`**: the edits of a second list come behind those of the first.
-/

namespace RamOverlay

theorem forall_mem_ite {α : Type} {c : Prop} [Decidable c] {as bs : List α} {p : α → Prop}
    (h : ∀ a ∈ as, p a) (h' : ∀ b ∈ bs, p b) : ∀ a ∈ if c then as else bs, p a := by
  split
  · exact h
  · exact h'

/-! ## Changes to a line -/

namespace LineEdits

variable (a b c : LineEdits)

@[simp] theorem empty_append : ({} : LineEdits).append a = a := by
  cases a
  simp [append]

@[simp] theorem append_empty : a.append {} = a := by
  cases a
  simp [append]

theorem append_assoc : (a.append b).append c = a.append (b.append c) := by
  simp [append, Bool.or_assoc, List.append_assoc]

/-- One change after the other. -/
def concat (changes : List LineEdits) : LineEdits := changes.foldr append {}

@[simp] theorem concat_nil : concat [] = {} := rfl

@[simp] theorem concat_cons (change : LineEdits) (changes : List LineEdits) :
    concat (change :: changes) = change.append (concat changes) := rfl

variable {α : Type} {as : List α} {change : α → LineEdits}

/-- Changes are added from left to right. -/
theorem concat_append (changes later : List LineEdits) :
    concat (changes ++ later) = (concat changes).append (concat later) := by
  induction changes with
  | nil => exact (empty_append _).symm
  | cons change changes ih => rw [List.cons_append, concat_cons, concat_cons, ih, append_assoc]

/-- Blocks that do nothing to a line can be left out. -/
theorem concat_map_eq_empty (h : ∀ a ∈ as, change a = {}) : concat (as.map change) = {} := by
  induction as with
  | nil => rfl
  | cons a as ih =>
    rw [List.map_cons, concat_cons, h a List.mem_cons_self, empty_append]
    exact ih fun b hb => h b (List.mem_cons_of_mem a hb)

/-- If no two steps touch the line, its change is that of the one that does. -/
theorem concat_map_eq {a : α} (ha : a ∈ as) (touches : α → Prop) (htouches : touches a)
    (hothers : as.Pairwise fun a b => ¬ (touches a ∧ touches b))
    (hempty : ∀ a ∈ as, ¬ touches a → change a = {}) : concat (as.map change) = change a := by
  obtain ⟨before, after, rfl⟩ := List.append_of_mem ha
  obtain ⟨-, hafter, hbefore⟩ := List.pairwise_append.1 hothers
  -- the steps before it and those behind it do not touch the line
  rw [List.map_append, List.map_cons, concat_append, concat_cons, concat_map_eq_empty,
    concat_map_eq_empty, empty_append, append_empty]
  · intro b hb
    refine hempty b (by simp [hb]) fun htouches' => ?_
    exact (List.pairwise_cons.1 hafter).1 b hb ⟨htouches, htouches'⟩
  · intro b hb
    refine hempty b (by simp [hb]) fun htouches' => ?_
    exact hbefore b hb a List.mem_cons_self ⟨htouches', htouches⟩

theorem concat_map_filter (p : α → Bool) :
    concat ((as.filter p).map change) = concat (as.map fun a => if p a then change a else {}) := by
  induction as with
  | nil => rfl
  | cons a as ih =>
    rw [List.filter_cons, List.map_cons, concat_cons, ← ih]
    split
    next => rfl
    next => rw [empty_append]

/-- All that one change does is done by the other one too. -/
structure Within (a b : LineEdits) : Prop where
  removed : a.removed = true → b.removed = true
  before : a.before ⊆ b.before
  inPlace : a.inPlace ⊆ b.inPlace
  after : a.after ⊆ b.after

variable {a b c} {d : LineEdits}

theorem Within.trans (h : a.Within b) (h' : b.Within c) : a.Within c where
  removed := h'.removed ∘ h.removed
  before := List.Subset.trans h.before h'.before
  inPlace := List.Subset.trans h.inPlace h'.inPlace
  after := List.Subset.trans h.after h'.after

theorem within_append_left : a.Within (a.append b) where
  removed h := Bool.or_eq_true_iff.2 (.inl h)
  before := List.subset_append_left _ _
  inPlace := List.subset_append_left _ _
  after := List.subset_append_left _ _

theorem within_append_right : b.Within (a.append b) where
  removed h := Bool.or_eq_true_iff.2 (.inr h)
  before := List.subset_append_right _ _
  inPlace := List.subset_append_right _ _
  after := List.subset_append_right _ _

/-- What two changes do together is within whatever both are within. -/
theorem Within.append_le (h : a.Within c) (h' : b.Within c) : (a.append b).Within c where
  removed hremoved := (Bool.or_eq_true_iff.1 hremoved).elim h.removed h'.removed
  before := List.append_subset.2 ⟨h.before, h'.before⟩
  inPlace := List.append_subset.2 ⟨h.inPlace, h'.inPlace⟩
  after := List.append_subset.2 ⟨h.after, h'.after⟩

theorem Within.append (h : a.Within c) (h' : b.Within d) : (a.append b).Within (c.append d) :=
  .append_le (h.trans within_append_left) (h'.trans within_append_right)

/-- The change of one block is within that of all of them. -/
theorem within_concat_map {a : α} (ha : a ∈ as) :
    (change a).Within (concat (as.map change)) := by
  induction as with
  | nil => cases ha
  | cons b as ih =>
    rw [List.map_cons, concat_cons]
    obtain rfl | ha := List.mem_cons.1 ha
    · exact within_append_left
    · exact (ih ha).trans within_append_right

end LineEdits

/-! ## Steps -/

namespace EditList

variable {edits edits' edits'' : EditList} {change change' : Nat → LineEdits}

/-- A step adds its change to each line, and nothing to the data. -/
structure Adds (edits edits' : EditList) (change : Nat → LineEdits) : Prop where
  atLine : ∀ line, edits'.atLine line = (edits.atLine line).append (change line)
  dataTexts : edits'.dataTexts = edits.dataTexts

namespace Adds

theorem refl (edits : EditList) : edits.Adds edits fun _ => {} :=
  ⟨fun _ => (LineEdits.append_empty _).symm, rfl⟩

theorem trans (h : edits.Adds edits' change) (h' : edits'.Adds edits'' change') :
    edits.Adds edits'' fun line => (change line).append (change' line) where
  atLine line := by rw [h'.atLine, h.atLine, LineEdits.append_assoc]
  dataTexts := h'.dataTexts.trans h.dataTexts

theorem congr (h : edits.Adds edits' change) (heq : ∀ line, change line = change' line) :
    edits.Adds edits' change' :=
  ⟨fun line => heq line ▸ h.atLine line, h.dataTexts⟩

/-- Steps that are done one after the other for the members of a list. -/
theorem foldl {α : Type} {step : EditList → α → EditList} {changes : α → Nat → LineEdits}
    (h : ∀ (edits : EditList) (a : α), edits.Adds (step edits a) (changes a)) (as : List α)
    (edits : EditList) :
    edits.Adds (as.foldl step edits) fun line => .concat (as.map (changes · line)) := by
  induction as generalizing edits with
  | nil => exact .refl edits
  | cons a as ih => exact (h edits a).trans (ih (step edits a))

end Adds

/-- Adding to a line leaves the other lines alone. -/
theorem adds_addAt (edits : EditList) (line : Nat) (added : LineEdits) :
    edits.Adds (edits.addAt line added) fun other => if line = other then added else {} where
  atLine other := by
    rw [atLine_addAt]
    split
    next => rfl
    next => rw [LineEdits.append_empty]
  dataTexts := rfl

/-! ## Two lists of edits -/

/-- The table has one entry for each line that it holds. -/
def OneEach (edits : EditList) : Prop := edits.lines.keys.Nodup

theorem OneEach.addAt (h : edits.OneEach) (line : Nat) (added : LineEdits) :
    (edits.addAt line added).OneEach :=
  Keyed.nodup_keys_adjust h line _

/-- In a table that has each line once, looking a line up is adding all that is there for it. -/
theorem getD_get?_eq (table : Keyed Nat LineEdits) (h : table.keys.Nodup) (line : Nat) :
    (table.get? line).getD {} =
      LineEdits.concat (table.map fun entry => if entry.1 = line then entry.2 else {}) := by
  -- a key found at the head is in no entry behind it, so the rest adds nothing
  induction table with
  | nil => rfl
  | cons entry rest ih =>
    obtain ⟨key, change⟩ := entry
    obtain ⟨hkey, hrest⟩ := List.nodup_cons.1 h
    rw [Keyed.get?, List.map_cons, LineEdits.concat_cons]
    by_cases heq : key = line
    · subst line
      rw [if_pos rfl, if_pos rfl, LineEdits.concat_map_eq_empty, LineEdits.append_empty]
      · rfl
      · intro other hother
        exact if_neg fun hsame => hkey (List.mem_map.2 ⟨other, hother, hsame⟩)
    · rw [if_neg heq, if_neg heq, LineEdits.empty_append, ih hrest]

/-- The edits of the second list come behind those of the first. -/
theorem atLine_append (edits : EditList) {others : EditList} (h : others.OneEach) (line : Nat) :
    (edits ++ others).atLine line = (edits.atLine line).append (others.atLine line) := by
  have hadds := Adds.foldl (fun edits (entry : Nat × LineEdits) =>
    edits.adds_addAt entry.1 entry.2) others.lines edits
  -- the second table is added entry by entry
  have hlines : (edits ++ others).lines = (others.lines.foldl
      (fun edits (entry : Nat × LineEdits) => edits.addAt entry.1 entry.2) edits).lines := by
    show others.lines.foldl _ edits.lines = _
    generalize others.lines = entries
    clear hadds
    induction entries generalizing edits with
    | nil => rfl
    | cons entry entries ih => exact ih (edits.addAt entry.1 entry.2)
  unfold atLine at hadds ⊢
  rw [hlines]
  exact (hadds.atLine line).trans (congrArg _ (getD_get?_eq others.lines h line).symm)

theorem dataTexts_append (edits others : EditList) :
    (edits ++ others).dataTexts = edits.dataTexts ++ others.dataTexts := rfl

end EditList

end RamOverlay
