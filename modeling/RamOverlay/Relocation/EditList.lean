import RamOverlay.Keyed
import RamOverlay.Text.Split

/-!
# Edits of lines

Changes to the lines of a text, kept until they are applied: texts before and after a line, texts in
its place, its removal, and texts for a data section at the end. Texts on one line keep the order in
which they came; a text of several lines is cut at its newlines.
-/

namespace RamOverlay

/-- What is done to a line: taken out, replaced, or with other text around it. -/
structure LineEdits where
  removed : Bool := false
  before : List String := []
  inPlace : List String := []
  after : List String := []
  deriving DecidableEq, Repr

/-- These changes and then others to the same line. -/
def LineEdits.append (a b : LineEdits) : LineEdits :=
  { removed := a.removed || b.removed
    before := a.before ++ b.before
    inPlace := a.inPlace ++ b.inPlace
    after := a.after ++ b.after }

def cutLines (texts : List String) : List String := texts.flatMap (Text.piecesOf '\n')

/-- What stands in the place of a line after its edits. -/
def LineEdits.apply (change : LineEdits) (line : String) : List String :=
  let middle :=
    if change.inPlace.isEmpty then (if change.removed then [] else [line])
    else cutLines change.inPlace
  cutLines change.before ++ middle ++ cutLines change.after

/-- Edits by line, and what is added to the data section. -/
structure EditList where
  lines : Keyed Nat LineEdits := []
  dataTexts : List String := []
  deriving DecidableEq, Repr

namespace EditList

def atLine (edits : EditList) (line : Nat) : LineEdits := (edits.lines.get? line).getD {}

/-- Edits of a line are added behind those it has. -/
def addAt (edits : EditList) (line : Nat) (change : LineEdits) : EditList :=
  { edits with lines := edits.lines.adjust line fun old => (old.getD {}).append change }

def before (edits : EditList) (line : Nat) (text : String) : EditList :=
  edits.addAt line { before := [text] }

def after (edits : EditList) (line : Nat) (text : String) : EditList :=
  edits.addAt line { after := [text] }

/-- Puts a text in the place of a line. -/
def replace (edits : EditList) (line : Nat) (text : String) : EditList :=
  edits.addAt line { inPlace := [text] }

/-- Removes a line; what is inserted around it stays. -/
def remove (edits : EditList) (line : Nat) : EditList := edits.addAt line { removed := true }

def addData (edits : EditList) (text : String) : EditList :=
  { edits with dataTexts := edits.dataTexts ++ [text] }

/-- Joins two lists of edits, line by line. -/
def append (edits others : EditList) : EditList :=
  { lines := others.lines.foldl (fun lines (line, change) =>
      lines.adjust line fun old => (old.getD {}).append change) edits.lines
    dataTexts := edits.dataTexts ++ others.dataTexts }

instance : Append EditList := ⟨append⟩

def isEmpty (edits : EditList) : Bool := edits.lines.isEmpty && edits.dataTexts.isEmpty

/-- The lines from a number on, each with its edits. An edit of a line that is not there does
nothing. -/
def applyFrom (edits : EditList) (line : Nat) : List String → List String
  | [] => []
  | text :: rest => (edits.atLine line).apply text ++ edits.applyFrom (line + 1) rest

/-- The edited text, with the data section at its end. -/
def apply (edits : EditList) (lines : List String) : List String :=
  edits.applyFrom 0 lines ++ ".data" :: cutLines edits.dataTexts

end EditList

end RamOverlay
