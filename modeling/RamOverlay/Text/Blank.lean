/-!
# Blank characters

Blanks are the 25 code points with the Unicode property `White_Space`. Trimming works on lists of
characters; `strip` is the same on strings. Main facts: a text trimmed on the left does not start
with a blank, and one trimmed on the right does not end with one.
-/

namespace RamOverlay.Text

/-- The code points with the Unicode property `White_Space`. -/
def isBlank (c : Char) : Bool :=
  let n := c.toNat
  (0x09 ≤ n && n ≤ 0x0d) || n == 0x20 || n == 0x85 || n == 0xa0 || n == 0x1680
    || (0x2000 ≤ n && n ≤ 0x200a) || n == 0x2028 || n == 0x2029 || n == 0x202f || n == 0x205f
    || n == 0x3000

def trimLeft (cs : List Char) : List Char := cs.dropWhile isBlank

/-- The text without the blanks at its end. -/
def trimRight : List Char → List Char
  | [] => []
  | c :: cs =>
    match trimRight cs with
    | [] => if isBlank c then [] else [c]
    | rest => c :: rest

def trim (cs : List Char) : List Char := trimRight (trimLeft cs)

/-- The text without the blanks at both of its ends. -/
def strip (s : String) : String := String.ofList (trim s.toList)

def allBlank (s : String) : Bool := s.toList.all isBlank

@[simp] theorem trimLeft_nil : trimLeft [] = [] := rfl

@[simp] theorem trimRight_nil : trimRight [] = [] := rfl

@[simp] theorem toList_strip (s : String) : (strip s).toList = trim s.toList := by
  simp [strip]

theorem trimRight_cons_eq (c : Char) (cs : List Char) :
    trimRight (c :: cs) =
      if trimRight cs = [] then (if isBlank c then [] else [c]) else c :: trimRight cs := by
  rw [trimRight]
  split <;> simp_all

/-- The start of a text trimmed on the left is not blank. -/
theorem isBlank_head?_trimLeft (cs : List Char) (c : Char) (h : (trimLeft cs).head? = some c) :
    isBlank c = false := by
  induction cs with
  | nil => simp at h
  | cons d ds ih =>
    by_cases hd : isBlank d
    · exact ih (by simpa [trimLeft, List.dropWhile_cons, hd] using h)
    · simp_all [trimLeft]

/-- The end of a text trimmed on the right is not blank. -/
theorem isBlank_getLast_trimRight (cs : List Char) (c : Char)
    (h : (trimRight cs).getLast? = some c) : isBlank c = false := by
  induction cs with
  | nil => simp at h
  | cons d ds ih =>
    rw [trimRight_cons_eq] at h
    split at h
    · -- The rest is blank: the first character is the last one that stays, if it is not blank.
      split at h
      · simp at h
      · simp_all
    · rename_i hne
      rw [List.getLast?_cons] at h
      cases hl : (trimRight ds).getLast? with
      | none => simp_all
      | some e => simp_all

theorem trimLeft_trimLeft (cs : List Char) : trimLeft (trimLeft cs) = trimLeft cs := by
  induction cs with
  | nil => rfl
  | cons c cs ih =>
    by_cases h : isBlank c
    · simpa [trimLeft, List.dropWhile_cons, h] using ih
    · simp [trimLeft, h]

end RamOverlay.Text
