import RamOverlay.Text.Numeral
import RamOverlay.Text.Split

/-!
# Texts put together

What trimming, cutting and reading make of a text that was put together from parts.

* **`pieces_append_cons`**, **`pieces_append_sep`**: a text with a separator in it is cut there.
* **`words_append_cons`**: so it is at a blank.
* **`piecesOf_joinWith`**: what is joined with newlines is cut at them.
* **`decimal_injective`**: a number is known by its digits.
-/

namespace RamOverlay.Text

variable {c sep : Char} {cs ds before after : List Char}

/-! ## Trimmed texts -/

/-- Nothing is cut off before a character that is no blank. -/
theorem trimRight_append_cons (hc : isBlank c = false) (before after : List Char) :
    trimRight (before ++ c :: after) = before ++ c :: trimRight after := by
  induction before with
  | nil =>
    rw [List.nil_append, List.nil_append, trimRight_cons_eq]
    split
    next hnil => rw [if_neg (by simp [hc]), hnil]
    next => rfl
  | cons b before ih =>
    rw [List.cons_append, trimRight_cons_eq, ih, if_neg (by simp), List.cons_append]

theorem trimLeft_cons (hc : isBlank c = false) (cs : List Char) :
    trimLeft (c :: cs) = c :: cs := by
  simp [trimLeft, hc]

theorem trim_of_ends {first last : Char} {more front : List Char} (hfirst : isBlank first = false)
    (hlast : isBlank last = false) (hends : first :: more = front ++ [last]) :
    trim (first :: more) = first :: more := by
  rw [trim, trimLeft_cons hfirst, hends, trimRight_append_cons hlast, trimRight_nil]

theorem trim_blank_cons (hc : isBlank c = true) (cs : List Char) : trim (c :: cs) = trim cs := by
  rw [trim, trim, trimLeft, List.dropWhile_cons_of_pos hc, trimLeft]

theorem head?_trimLeft_append (h : (trimLeft cs).head? = some c) (ds : List Char) :
    (trimLeft (cs ++ ds)).head? = some c := by
  unfold trimLeft at h ⊢
  rw [List.dropWhile_append]
  split
  next hempty => rw [List.isEmpty_iff.1 hempty] at h; cases h
  next => rw [List.head?_append, h, Option.some_or]

theorem head?_trimLeft_of_trim (h : (trim cs).head? = some c) : (trimLeft cs).head? = some c := by
  cases hleft : trimLeft cs with
  | nil => rw [trim, hleft] at h; cases h
  | cons first rest =>
    rw [trim, hleft, trimRight_cons_eq] at h
    split at h
    · split at h
      · cases h
      · exact h
    · exact h

/-- The end of a trimmed text, or of what comes before it, is not blank. -/
theorem isBlank_getLast_cons_trim (hc : isBlank c = false) (cs : List Char) :
    isBlank ((c :: trim cs).getLast (List.cons_ne_nil _ _)) = false := by
  cases hcs : trim cs with
  | nil => exact hc
  | cons d ds =>
    rw [List.getLast_cons (List.cons_ne_nil d ds)]
    refine isBlank_getLast_trimRight (trimLeft cs) _ ?_
    show (trim cs).getLast? = _
    rw [hcs, List.getLast?_eq_some_getLast]

/-- Trimming twice does no more than once. -/
theorem trim_trim (cs : List Char) : trim (trim cs) = trim cs := by
  cases hcs : trim cs with
  | nil => rfl
  | cons first more =>
    have hfirst : isBlank first = false :=
      isBlank_head?_trimLeft cs first (head?_trimLeft_of_trim (by rw [hcs]; rfl))
    have hlast := isBlank_getLast_cons_trim hfirst cs
    simp only [hcs, List.getLast_cons (List.cons_ne_nil first more)] at hlast
    exact trim_of_ends hfirst hlast (List.dropLast_concat_getLast _).symm

theorem strip_strip (s : String) : strip (strip s) = strip s := by
  rw [strip, toList_strip, trim_trim, strip]

theorem trim_of_not_blank (h : ∀ c ∈ cs, isBlank c = false) : trim cs = cs := by
  have hright : trimRight cs = cs := by
    induction cs with
    | nil => rfl
    | cons c cs ih =>
      obtain ⟨hc, hcs⟩ := List.forall_mem_cons.1 h
      rw [trimRight_cons_eq, ih hcs]
      split
      next hnil => rw [if_neg (by simp [hc]), hnil]
      next => rfl
  have hleft : trimLeft cs = cs := by
    cases cs with
    | nil => rfl
    | cons c cs => exact trimLeft_cons (h c List.mem_cons_self) cs
  rw [trim, hleft, hright]

/-- Trimming on the left stops at the first character that is not blank. -/
theorem trimLeft_append_cons (hc : isBlank c = false) (before after : List Char) :
    trimLeft (before ++ c :: after) = trimLeft before ++ c :: after := by
  unfold trimLeft
  rw [List.dropWhile_append, List.dropWhile_cons_of_neg (by simp [hc])]
  split
  next hempty => rw [List.isEmpty_iff.1 hempty, List.nil_append]
  next => rfl

theorem trim_append_cons (hc : isBlank c = false) (before after : List Char) :
    trim (before ++ c :: after) = trimLeft before ++ c :: trimRight after := by
  rw [trim, trimLeft_append_cons hc, trimRight_append_cons hc]

theorem trimLeft_blanks_append (h : ∀ c ∈ ds, isBlank c = true) (cs : List Char) :
    trimLeft (ds ++ cs) = trimLeft cs :=
  List.dropWhile_append_of_pos h

theorem trimLeft_append (h : ∃ c ∈ cs, isBlank c = false) (ds : List Char) :
    trimLeft (cs ++ ds) = trimLeft cs ++ ds := by
  obtain ⟨c, hmem, hc⟩ := h
  obtain ⟨before, after, rfl⟩ := List.append_of_mem hmem
  rw [List.append_assoc, List.cons_append, trimLeft_append_cons hc, trimLeft_append_cons hc,
    List.append_assoc, List.cons_append]

theorem trimRight_append_blanks (h : ∀ c ∈ ds, isBlank c = true) (cs : List Char) :
    trimRight (cs ++ ds) = trimRight cs := by
  induction cs with
  | nil =>
    induction ds with
    | nil => rfl
    | cons d ds ih =>
      obtain ⟨hd, hds⟩ := List.forall_mem_cons.1 h
      rw [List.nil_append, trimRight_cons_eq, ← List.nil_append ds, ih hds, trimRight_nil,
        if_pos rfl, if_pos hd]
  | cons c cs ih => rw [List.cons_append, trimRight_cons_eq, ih, trimRight_cons_eq]

/-- Blanks at the ends make no difference. -/
theorem trim_append_blanks (h : ∀ c ∈ ds, isBlank c = true) (cs : List Char) :
    trim (cs ++ ds) = trim cs := by
  have hds : ds.dropWhile isBlank = [] := by
    simpa [trimLeft] using trimLeft_blanks_append h []
  unfold trim trimLeft
  rw [List.dropWhile_append]
  split
  next hempty => rw [List.isEmpty_iff.1 hempty, hds]
  next => exact trimRight_append_blanks h _

/-- Nothing is left of a text of blanks, and of no other one. -/
theorem trim_eq_nil_iff : trim cs = [] ↔ ∀ c ∈ cs, isBlank c = true := by
  constructor
  · intro hnil c hmem
    cases hc : isBlank c with
    | true => rfl
    | false =>
      obtain ⟨before, after, rfl⟩ := List.append_of_mem hmem
      rw [trim_append_cons hc] at hnil
      simp at hnil
  · intro h
    have hblanks := trim_append_blanks h []
    rwa [List.nil_append] at hblanks

/-- What is cut off at the end is blank. -/
theorem exists_trimRight (cs : List Char) :
    ∃ ds, cs = trimRight cs ++ ds ∧ ∀ c ∈ ds, isBlank c = true := by
  induction cs with
  | nil => exact ⟨[], rfl, fun _ h => absurd h List.not_mem_nil⟩
  | cons c cs ih =>
    obtain ⟨ds, hcs, hds⟩ := ih
    rw [trimRight_cons_eq]
    split
    -- The rest is blank: the character goes with it, or is the last one that stays.
    next hnil =>
      rw [hnil, List.nil_append] at hcs
      subst hcs
      split
      next hc => exact ⟨c :: cs, rfl, List.forall_mem_cons.2 ⟨hc, hds⟩⟩
      next => exact ⟨cs, rfl, hds⟩
    next => exact ⟨ds, by rw [List.cons_append, ← hcs], hds⟩

theorem mem_trim (hmem : c ∈ cs) (hc : isBlank c = false) : c ∈ trim cs := by
  obtain ⟨before, after, rfl⟩ := List.append_of_mem hmem
  rw [trim_append_cons hc]
  exact List.mem_append_right _ List.mem_cons_self

theorem trim_trimLeft (cs : List Char) : trim (trimLeft cs) = trim cs := by
  rw [trim, trimLeft_trimLeft, ← trim]

theorem trim_trimRight (cs : List Char) : trim (trimRight cs) = trim cs := by
  obtain ⟨ds, hcs, hblank⟩ := exists_trimRight cs
  have hsame := trim_append_blanks hblank (trimRight cs)
  rw [← hcs] at hsame
  exact hsame.symm

/-! ## Pieces -/

theorem piecesBy_of_none {sep : Char → Bool} {cs : List Char} (h : ∀ c ∈ cs, sep c = false) :
    piecesBy sep cs = [cs] := by
  induction cs with
  | nil => rfl
  | cons c cs ih =>
    rw [piecesBy, h c List.mem_cons_self, if_neg Bool.false_ne_true,
      ih fun d hd => h d (List.mem_cons_of_mem c hd)]

/-- The first piece ends at the first separator. -/
theorem pieces_append_cons (h : sep ∉ before) (after : List Char) :
    pieces sep (before ++ sep :: after) = before :: pieces sep after := by
  unfold pieces
  induction before with
  | nil => rw [List.nil_append, piecesBy, if_pos (beq_self_eq_true sep)]
  | cons b before ih =>
    rw [List.mem_cons, not_or] at h
    rw [List.cons_append, piecesBy, if_neg (by simpa using Ne.symm h.1), ih h.2]

theorem pieces_of_not_mem {cs : List Char} (h : sep ∉ cs) : pieces sep cs = [cs] := by
  refine piecesBy_of_none fun c hc => ?_
  rw [beq_eq_false_iff_ne]
  rintro rfl
  exact h hc

theorem cutFirst_append_cons (h : sep ∉ before) (after : List Char) :
    cutFirst sep (before ++ sep :: after) = some (before, after) := by
  induction before with
  | nil => rw [List.nil_append, cutFirst, if_pos rfl]
  | cons b before ih =>
    rw [List.mem_cons, not_or] at h
    rw [List.cons_append, cutFirst, if_neg (Ne.symm h.1), ih h.2]
    rfl

theorem cutFirst_of_not_mem {cs : List Char} (h : sep ∉ cs) : cutFirst sep cs = none := by
  induction cs with
  | nil => rfl
  | cons c cs ih =>
    rw [List.mem_cons, not_or] at h
    rw [cutFirst, if_neg (Ne.symm h.1), ih h.2]
    rfl

theorem cutLast_of_not_mem {cs : List Char} (h : sep ∉ cs) : cutLast sep cs = none := by
  induction cs with
  | nil => rfl
  | cons c cs ih =>
    rw [List.mem_cons, not_or] at h
    rw [cutLast, ih h.2]
    exact if_neg (Ne.symm h.1)

theorem cutLast_append_cons (h : sep ∉ after) (before : List Char) :
    cutLast sep (before ++ sep :: after) = some (before, after) := by
  induction before with
  | nil =>
    rw [List.nil_append, cutLast, cutLast_of_not_mem h]
    exact if_pos rfl
  | cons b before ih => rw [List.cons_append, cutLast, ih]

/-- There is one way to cut a text at its last separator. -/
theorem cutLast_eq_some_iff : cutLast sep cs = some (before, after) ↔
    cs = before ++ sep :: after ∧ sep ∉ after := by
  refine ⟨eq_of_cutLast, ?_⟩
  rintro ⟨rfl, h⟩
  exact cutLast_append_cons h before

/-- A text may be taken apart at any of its separators. -/
theorem piecesBy_append_cons {sep : Char → Bool} (hc : sep c = true) (cs ds : List Char) :
    piecesBy sep (cs ++ c :: ds) = piecesBy sep cs ++ piecesBy sep ds := by
  induction cs with
  | nil => simp [piecesBy, hc]
  | cons d cs ih =>
    rw [List.cons_append, piecesBy, ih, piecesBy]
    split
    · rfl
    · cases hpieces : piecesBy sep cs with
      | nil => exact absurd hpieces (piecesBy_ne_nil _ cs)
      | cons piece rest => rfl

theorem pieces_append_sep (cs ds : List Char) :
    pieces sep (cs ++ sep :: ds) = pieces sep cs ++ pieces sep ds :=
  @piecesBy_append_cons sep (· == sep) (beq_self_eq_true sep) cs ds

/-- A text without the separator goes on in the last piece. -/
theorem exists_pieces_append (hds : sep ∉ ds) (cs : List Char) : ∃ init last,
    pieces sep cs = init ++ [last] ∧ pieces sep (cs ++ ds) = init ++ [last ++ ds] := by
  unfold pieces
  induction cs with
  | nil => exact ⟨[], [], rfl, pieces_of_not_mem hds⟩
  | cons c cs ih =>
    obtain ⟨init, last, hcs, hall⟩ := ih
    rw [List.cons_append, piecesBy, piecesBy, hcs, hall]
    split
    · exact ⟨[] :: init, last, rfl, rfl⟩
    · cases init with
      | nil => exact ⟨[], c :: last, rfl, rfl⟩
      | cons piece init => exact ⟨(c :: piece) :: init, last, rfl, rfl⟩

/-! ## Words -/

theorem words_append_cons (hc : isBlank c = true) (cs ds : List Char) :
    words (cs ++ c :: ds) = words cs ++ words ds := by
  rw [words, piecesBy_append_cons hc, List.filter_append, words, words]

theorem words_blank_cons (hc : isBlank c = true) (cs : List Char) : words (c :: cs) = words cs :=
  words_append_cons hc [] cs

/-- A text without blanks is a word, unless it is empty. -/
theorem words_of_not_blank (hne : cs ≠ []) (h : ∀ c ∈ cs, isBlank c = false) :
    words cs = [cs] := by
  simp [words, piecesBy_of_none h, hne]

/-! ## Numerals -/

theorem isBlank_of_isAlphanum (h : c.isAlphanum = true) : isBlank c = false := by
  -- the ranges of the letters and digits
  have hranges : ((decide (c.val ≥ 65 ∧ c.val ≤ 90) || decide (c.val ≥ 97) && decide (c.val ≤ 122))
      || decide (c.val ≥ 48) && decide (c.val ≤ 57)) = true := h
  simp only [Bool.or_eq_true, Bool.and_eq_true, decide_eq_true_eq, ge_iff_le,
    UInt32.le_iff_toNat_le, UInt32.reduceToNat] at hranges
  rw [Bool.eq_false_iff]
  unfold isBlank
  simp only [ne_eq, Bool.or_eq_true, Bool.and_eq_true, decide_eq_true_eq, beq_iff_eq, Char.toNat]
  omega

theorem isDigit_of_mem_decimalBefore {fuel n : Nat} {rest : List Char}
    (hrest : ∀ c ∈ rest, c.isDigit = true) : ∀ c ∈ decimalBefore fuel n rest, c.isDigit = true := by
  -- There are ten digits to look at, since only the last place is written.
  have hdigit : ∀ d, (digitChar d).isDigit = true := by
    intro d
    have hlt : d % 10 < 10 := Nat.mod_lt _ (by decide)
    unfold digitChar
    generalize d % 10 = e at hlt
    match e, hlt with
    | 0, _ | 1, _ | 2, _ | 3, _ | 4, _ | 5, _ | 6, _ | 7, _ | 8, _ | 9, _ => decide
  induction fuel generalizing n rest with
  | zero => exact hrest
  | succ fuel ih =>
    rw [decimalBefore]
    split
    · exact List.forall_mem_cons.2 ⟨hdigit n, hrest⟩
    · exact ih (List.forall_mem_cons.2 ⟨hdigit n, hrest⟩)

theorem isDigit_of_mem_decimal {n : Nat} : ∀ c ∈ (decimal n).toList, c.isDigit = true := by
  rw [decimal, String.toList_ofList]
  exact isDigit_of_mem_decimalBefore fun _ h => absurd h List.not_mem_nil

theorem not_newline_of_mem_decimal (n : Nat) : '\n' ∉ (decimal n).toList := by
  intro hmem
  have hdigit := isDigit_of_mem_decimal _ hmem
  exact absurd hdigit (by decide)

@[simp] theorem digits?_decimal (n : Nat) : digits? (decimal n).toList = some n := by
  rw [decimal, String.toList_ofList, digits?_decimalDigits]

theorem decimal_injective {m n : Nat} (h : decimal m = decimal n) : m = n := by
  have hdigits := congrArg (fun s => digits? s.toList) h
  simpa using hdigits

/-! ## Joined texts -/

theorem joinWith_singleton (sep s : String) : joinWith sep [s] = s := by simp [joinWith]

theorem joinWith_cons_cons (sep s t : String) (strings : List String) :
    joinWith sep (s :: t :: strings) = s ++ (sep ++ joinWith sep (t :: strings)) := by
  simp [joinWith, List.intercalate_cons_cons]

/-- Two rows of texts are joined with a separator between them. -/
theorem joinWith_append {sep : String} {strings others : List String} (hstrings : strings ≠ [])
    (hothers : others ≠ []) : joinWith sep (strings ++ others) =
      joinWith sep strings ++ (sep ++ joinWith sep others) := by
  induction strings with
  | nil => exact absurd rfl hstrings
  | cons s strings ih =>
    cases strings with
    | nil =>
      obtain ⟨t, others, rfl⟩ := List.exists_cons_of_ne_nil hothers
      rw [List.cons_append, List.nil_append, joinWith_cons_cons, joinWith_singleton]
    | cons next strings =>
      have hrest := ih (List.cons_ne_nil next strings)
      rw [List.cons_append] at hrest
      rw [List.cons_append, List.cons_append, joinWith_cons_cons, hrest, joinWith_cons_cons,
        String.append_assoc, String.append_assoc]

/-- What is joined with newlines is cut at them. -/
theorem piecesOf_joinWith {strings : List String} (hsome : strings ≠ [])
    (h : ∀ s ∈ strings, '\n' ∉ s.toList) :
    piecesOf '\n' (joinWith "\n" strings) = strings := by
  unfold piecesOf joinWith
  rw [String.toList_ofList]
  induction strings with
  | nil => exact absurd rfl hsome
  | cons s strings ih =>
    have hs := h s List.mem_cons_self
    cases strings with
    | nil => simp [pieces_of_not_mem hs]
    | cons next strings =>
      rw [List.map_cons, List.map_cons, List.intercalate_cons_cons, ← List.map_cons]
      -- The first text is the first piece, and the others are pieces of the rest.
      have hrest := ih (List.cons_ne_nil _ _) fun s' hs' => h s' (List.mem_cons_of_mem s hs')
      rw [List.append_assoc]
      refine (congrArg (List.map String.ofList) (pieces_append_cons hs _)).trans ?_
      rw [List.map_cons, String.ofList_toList]
      exact congrArg (s :: ·) hrest

end RamOverlay.Text
