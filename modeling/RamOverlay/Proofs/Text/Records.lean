import RamOverlay.Proofs.Text.Pieces

/-!
# Texts of records

What a line holds and which of many lines counts, for texts that hold a record on a line.

* **`Fields`**, **`pieces_eq_iff`**: the fields between separators, by what they are together.
* **`Words`**, **`words_eq_iff`**: the words between blanks, by how a text is put together.
* **`FirstWithout`**: the first line that is refused.
* **`LastWith`**: the last line that says something, which is the one that counts.
-/

namespace RamOverlay

namespace Text

variable {sep : Char} {cs : List Char} {fields ws : List (List Char)}

/-! ## Fields -/

/-- The fields of a text with separators between them. -/
structure Fields (sep : Char) (cs : List Char) (fields : List (List Char)) : Prop where
  ne_nil : fields ≠ []
  not_mem : ∀ field ∈ fields, sep ∉ field
  joined : [sep].intercalate fields = cs

theorem fields_pieces (sep : Char) (cs : List Char) : Fields sep cs (pieces sep cs) := by
  refine ⟨piecesBy_ne_nil _ cs, fun field hfield hsep => ?_, intercalate_pieces sep cs⟩
  have hnot := not_sep_of_mem_piecesBy (· == sep) cs field hfield sep hsep
  simp at hnot

/-- Cutting finds the fields of a text. -/
theorem Fields.pieces_eq (h : Fields sep cs fields) : pieces sep cs = fields := by
  obtain ⟨hne, hsep, rfl⟩ := h
  induction fields with
  | nil => exact absurd rfl hne
  | cons field fields ih =>
    obtain ⟨hfield, hfields⟩ := List.forall_mem_cons.1 hsep
    cases fields with
    | nil =>
      rw [List.intercalate_singleton]
      exact pieces_of_not_mem hfield
    | cons next fields =>
      rw [List.intercalate_cons_cons, List.append_assoc, List.singleton_append,
        pieces_append_cons hfield, ih (List.cons_ne_nil next fields) hfields]

theorem pieces_eq_iff : pieces sep cs = fields ↔ Fields sep cs fields :=
  ⟨fun h => h ▸ fields_pieces sep cs, Fields.pieces_eq⟩

/-! ## Words -/

/-- The words of a text: longest parts without blanks. -/
inductive Words : List Char → List (List Char) → Prop where
  | nil : Words [] []
  | blank {c : Char} {cs : List Char} {ws : List (List Char)} (hc : isBlank c = true)
      (h : Words cs ws) : Words (c :: cs) ws
  | word {w rest : List Char} {ws : List (List Char)} (hne : w ≠ [])
      (hw : ∀ c ∈ w, isBlank c = false) (hrest : ∀ c, rest.head? = some c → isBlank c = true)
      (h : Words rest ws) : Words (w ++ rest) (w :: ws)

/-- Cutting at the blanks finds the words of a text. -/
theorem Words.words_eq (h : Words cs ws) : words cs = ws := by
  induction h with
  | nil => rfl
  | blank hc _ ih => rw [words_blank_cons hc, ih]
  | @word w rest ws hne hw hrest _ ih =>
    cases rest with
    | nil =>
      rw [List.append_nil, words_of_not_blank hne hw, ← ih]
      rfl
    | cons c rest =>
      have hc := hrest c rfl
      rw [words_append_cons hc, words_of_not_blank hne hw, ← ih, words_blank_cons hc]
      rfl

/-- Every text has words: a character joins the word behind it, if it is no blank. -/
theorem exists_words (cs : List Char) : ∃ ws, Words cs ws := by
  induction cs with
  | nil => exact ⟨[], .nil⟩
  | cons c cs ih =>
    obtain ⟨ws, hws⟩ := ih
    cases hblank : isBlank c with
    | true => exact ⟨ws, .blank hblank hws⟩
    | false =>
      -- behind `c` is the end, a blank, or a word that `c` joins
      have hc : ∀ d ∈ [c], isBlank d = false := by simpa using hblank
      cases hws with
      | nil => exact ⟨[[c]], .word (List.cons_ne_nil c []) hc (fun _ h => nomatch h) .nil⟩
      | @blank d cs ws hd h =>
        have hhead : ∀ e, (d :: cs).head? = some e → isBlank e = true := fun e heq =>
          Option.some.inj heq ▸ hd
        exact ⟨[c] :: ws, .word (List.cons_ne_nil c []) hc hhead (.blank hd h)⟩
      | word _ hw hrest h =>
        exact ⟨_, .word (List.cons_ne_nil c _) (List.forall_mem_cons.2 ⟨hblank, hw⟩) hrest h⟩

theorem words_eq_iff : words cs = ws ↔ Words cs ws := by
  refine ⟨?_, Words.words_eq⟩
  rintro rfl
  obtain ⟨ws, hws⟩ := exists_words cs
  exact hws.words_eq ▸ hws

end Text

/-! ## Lines that count -/

section Lines

variable {α β : Type} {p : α → Prop} {r : α → β → Prop} {l before : List α} {a x : α} {b : β}

/-- `a` is the first in a list without a property; `before` is what stands before it. -/
structure FirstWithout (p : α → Prop) (l before : List α) (a : α) : Prop where
  parts : ∃ after, l = before ++ a :: after
  before : ∀ x ∈ before, p x
  without : ¬ p a

theorem not_firstWithout_nil : ¬ FirstWithout p [] before a := by
  rintro ⟨⟨after, h⟩, -, -⟩
  simp at h

theorem firstWithout_cons_of (hx : p x) : FirstWithout p (x :: l) before a ↔
    ∃ init, before = x :: init ∧ FirstWithout p l init a := by
  constructor
  · rintro ⟨⟨after, h⟩, hbefore, ha⟩
    cases before with
    | nil =>
      obtain ⟨rfl, -⟩ := List.cons.inj h
      exact absurd hx ha
    | cons y init =>
      obtain ⟨rfl, hl⟩ := List.cons.inj h
      exact ⟨init, rfl, ⟨after, hl⟩, (List.forall_mem_cons.1 hbefore).2, ha⟩
  · rintro ⟨init, rfl, ⟨after, rfl⟩, hinit, ha⟩
    exact ⟨⟨after, rfl⟩, List.forall_mem_cons.2 ⟨hx, hinit⟩, ha⟩

theorem firstWithout_cons_of_not (hx : ¬ p x) :
    FirstWithout p (x :: l) before a ↔ before = [] ∧ a = x := by
  constructor
  · rintro ⟨⟨after, h⟩, hbefore, ha⟩
    cases before with
    | nil => exact ⟨rfl, (List.cons.inj h).1.symm⟩
    | cons y init =>
      obtain ⟨rfl, -⟩ := List.cons.inj h
      exact absurd (List.forall_mem_cons.1 hbefore).1 hx
  · rintro ⟨rfl, rfl⟩
    exact ⟨⟨l, rfl⟩, fun _ h => absurd h List.not_mem_nil, hx⟩

/-- A list in which not all have a property has a first one without it. -/
theorem exists_firstWithout (h : ¬ ∀ x ∈ l, p x) : ∃ before a, FirstWithout p l before a := by
  induction l with
  | nil => exact absurd (fun x hx => absurd hx List.not_mem_nil) h
  | cons x l ih =>
    by_cases hx : p x
    · obtain ⟨before, a, hfirst⟩ := ih fun hl => h (List.forall_mem_cons.2 ⟨hx, hl⟩)
      exact ⟨x :: before, a, (firstWithout_cons_of hx).2 ⟨before, rfl, hfirst⟩⟩
    · exact ⟨[], x, (firstWithout_cons_of_not hx).2 ⟨rfl, rfl⟩⟩

/-- What the last of a list that is related to anything is related to. -/
def LastWith (r : α → β → Prop) (l : List α) (b : β) : Prop :=
  ∃ before a after, l = before ++ a :: after ∧ r a b ∧ ∀ later ∈ after, ∀ b', ¬ r later b'

theorem not_lastWith_nil : ¬ LastWith r [] b := by
  rintro ⟨before, a, after, h, -⟩
  simp at h

/-- The last one of a list with a result is in the rest, or it is the first if the rest has none. -/
theorem lastWith_cons : LastWith r (x :: l) b ↔
    LastWith r l b ∨ (r x b ∧ ∀ later ∈ l, ∀ b', ¬ r later b') := by
  constructor
  · rintro ⟨before, a, after, h, hab, hafter⟩
    -- What stands before the last one tells whether it is the head of the list.
    cases before with
    | nil =>
      obtain ⟨rfl, rfl⟩ := List.cons.inj h
      exact .inr ⟨hab, hafter⟩
    | cons y before =>
      obtain ⟨rfl, rfl⟩ := List.cons.inj h
      exact .inl ⟨before, a, after, rfl, hab, hafter⟩
  · rintro (⟨before, a, after, rfl, hab, hafter⟩ | ⟨hxb, hl⟩)
    · exact ⟨x :: before, a, after, rfl, hab, hafter⟩
    · exact ⟨[], x, l, rfl, hxb, hl⟩

end Lines

end RamOverlay
