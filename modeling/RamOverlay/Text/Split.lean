import RamOverlay.Text.Blank

/-!
# Cutting text into pieces

`pieces sep` cuts at every separator and never returns an empty list; `lines` cuts into lines as
editors count them; `words` cuts at runs of blanks. `cutFirst` and `cutLast` cut once, at the first
or the last separator. Main facts: joining the pieces gives the text back, and no piece holds the
separator.
-/

namespace RamOverlay.Text

/-- The pieces of a text between its separators. There is always one more of them than separators.
-/
def piecesBy (sep : Char → Bool) : List Char → List (List Char)
  | [] => [[]]
  | c :: cs =>
    if sep c then [] :: piecesBy sep cs
    else
      match piecesBy sep cs with
      | [] => [[c]]
      | piece :: rest => (c :: piece) :: rest

def pieces (sep : Char) (cs : List Char) : List (List Char) := piecesBy (· == sep) cs

/-- Cuts a text at the first separator. -/
def cutFirst (sep : Char) : List Char → Option (List Char × List Char)
  | [] => none
  | c :: cs =>
    if c = sep then some ([], cs)
    else (cutFirst sep cs).map fun (before, after) => (c :: before, after)

def cutLast (sep : Char) : List Char → Option (List Char × List Char)
  | [] => none
  | c :: cs =>
    match cutLast sep cs with
    | some (before, after) => some (c :: before, after)
    | none => if c = sep then some ([], cs) else none

/-- A line without the carriage return at its end. -/
def dropReturn : List Char → List Char
  | [] => []
  | [c] => if c = '\r' then [] else [c]
  | c :: cs => c :: dropReturn cs

/-- The lines among the pieces between newlines: a newline ends a line, together with a carriage
return before it, and the text after the last newline is a line if it is not empty. -/
def linesOfPieces : List (List Char) → List (List Char)
  | [] => []
  | [last] => if last = [] then [] else [last]
  | piece :: rest => dropReturn piece :: linesOfPieces rest

/-- The lines of a text. Nothing stands behind the last newline. -/
def lines (cs : List Char) : List (List Char) := linesOfPieces (pieces '\n' cs)

/-- What stands between the blanks of a text. -/
def words (cs : List Char) : List (List Char) := (piecesBy isBlank cs).filter (· ≠ [])

/-- Whether a text is somewhere within another one. -/
def occursIn (needle : List Char) : List Char → Bool
  | [] => needle.isEmpty
  | c :: cs => needle.isPrefixOf (c :: cs) || occursIn needle cs

def startsWith (start s : String) : Bool := start.toList.isPrefixOf s.toList

def mentions (part s : String) : Bool := occursIn part.toList s.toList

/-- Texts with a separator between them. -/
def joinWith (sep : String) (strings : List String) : String :=
  String.ofList (sep.toList.intercalate (strings.map String.toList))

/-- What stands before and after the first separator of a string. -/
def cutFirstOf (sep : Char) (s : String) : Option (String × String) :=
  (cutFirst sep s.toList).map fun (before, after) => (String.ofList before, String.ofList after)

def piecesOf (sep : Char) (s : String) : List String := (pieces sep s.toList).map String.ofList

theorem piecesBy_ne_nil (sep : Char → Bool) (cs : List Char) : piecesBy sep cs ≠ [] := by
  cases cs with
  | nil => simp [piecesBy]
  | cons c cs =>
    rw [piecesBy]
    split
    · simp
    · split <;> simp

/-- The pieces with the separator between them are the text. -/
theorem intercalate_pieces (sep : Char) (cs : List Char) :
    [sep].intercalate (pieces sep cs) = cs := by
  unfold pieces
  induction cs with
  | nil => rfl
  | cons c cs ih =>
    rw [piecesBy]
    have hne := piecesBy_ne_nil (· == sep) cs
    cases hp : piecesBy (· == sep) cs with
    | nil => exact absurd hp hne
    | cons piece rest =>
      rw [hp] at ih
      split
      · -- a separator begins a new piece
        rename_i hc
        rw [List.intercalate_cons_cons, ih, eq_of_beq hc]
        rfl
      · -- another character joins the first piece
        cases rest with
        | nil => simpa using ih
        | cons next rest =>
          rw [List.intercalate_cons_cons] at ih ⊢
          simpa using ih

/-- No piece holds a separator. -/
theorem not_sep_of_mem_piecesBy (sep : Char → Bool) (cs : List Char) :
    ∀ piece ∈ piecesBy sep cs, ∀ c ∈ piece, sep c = false := by
  induction cs with
  | nil => simp [piecesBy]
  | cons d ds ih =>
    rw [piecesBy]
    split
    · simpa using ih
    · -- A character that is no separator joins the piece behind it.
      rename_i hd
      split
      · simp_all
      · rename_i piece rest heq
        rw [heq] at ih
        intro p hp c hc
        rcases List.mem_cons.1 hp with rfl | hp
        · rcases List.mem_cons.1 hc with rfl | hc
          · simpa using hd
          · exact ih piece (by simp) c hc
        · exact ih p (by simp [hp]) c hc

/-- The two parts around the first separator, with it between them, are the text. -/
theorem eq_of_cutFirst {sep : Char} {cs before after : List Char}
    (h : cutFirst sep cs = some (before, after)) : cs = before ++ sep :: after ∧ sep ∉ before := by
  induction cs generalizing before with
  | nil => simp [cutFirst] at h
  | cons c cs ih =>
    rw [cutFirst] at h
    split at h
    · simp_all
    · rename_i hc
      obtain ⟨⟨b, a⟩, hba, heq⟩ := Option.map_eq_some_iff.1 h
      simp only [Prod.mk.injEq] at heq
      obtain ⟨rfl, rfl⟩ := heq
      obtain ⟨rfl, hb⟩ := ih hba
      simp only [List.cons_append, List.mem_cons, not_or, true_and]
      exact ⟨fun h => hc h.symm, hb⟩

theorem not_mem_of_cutLast {sep : Char} {cs : List Char} (h : cutLast sep cs = none) :
    sep ∉ cs := by
  induction cs with
  | nil => simp
  | cons c cs ih =>
    rw [cutLast] at h
    split at h
    · cases h
    · rename_i hnone
      split at h
      · cases h
      · rename_i hc
        simp only [List.mem_cons, not_or]
        exact ⟨fun h => hc h.symm, ih hnone⟩

/-- The two parts around the last separator, with it between them, are the text. -/
theorem eq_of_cutLast {sep : Char} {cs before after : List Char}
    (h : cutLast sep cs = some (before, after)) : cs = before ++ sep :: after ∧ sep ∉ after := by
  induction cs generalizing before after with
  | nil => simp [cutLast] at h
  | cons c cs ih =>
    rw [cutLast] at h
    split at h
    · rename_i b a heq
      simp only [Option.some.injEq, Prod.mk.injEq] at h
      obtain ⟨rfl, rfl⟩ := h
      obtain ⟨rfl, ha⟩ := ih heq
      exact ⟨rfl, ha⟩
    · -- With no separator in the rest, this one is the last.
      rename_i hnone
      split at h
      · rename_i hc
        simp only [Option.some.injEq, Prod.mk.injEq] at h
        obtain ⟨rfl, rfl⟩ := h
        exact ⟨by simp [hc], not_mem_of_cutLast hnone⟩
      · simp at h

end RamOverlay.Text
