import RamOverlay.Flow.Graph
import RamOverlay.Text.Split
import RamOverlay.Traced

/-!
# Execution profiles

Measured execution counts. Each line that is not blank holds a location and a count; the location is
a unit and the line at which a block starts, with a colon or, if there is none, an underscore
between them. The lines are applied in order up to the first malformed one.
-/

namespace RamOverlay

/-- A count that was measured, for the block at a line of a unit. -/
structure ProfileEntry where
  unit : String
  line : Nat
  count : Nat
  deriving DecidableEq, Repr

/-- A malformed line of a profile, counted from one. -/
structure ProfileError where
  line : Nat
  text : String
  deriving DecidableEq, Repr

def ProfileError.message (e : ProfileError) : String :=
  "malformed profile line " ++ Text.decimal e.line ++ ": `" ++ e.text ++ "`"

/-- Reads the fields of a line that is not blank. -/
def ProfileEntry.ofFields? (location : List Char) (rest : List (List Char)) :
    Option ProfileEntry := do
  let count ← rest.head?.bind (Text.natural? Text.doubleLimit)
  let (unit, line) ← Text.cutLast (if location.contains ':' then ':' else '_') location
  let line ← Text.natural? Text.doubleLimit line
  return { unit := String.ofList unit, line, count }

namespace Graph

/-- Sets the count of the block that starts at a line; also tells whether there is one. -/
def applyEntry (graph : Graph) (entry : ProfileEntry) : Graph × Bool :=
  if graph.unit = entry.unit then
    match graph.blockAtLine? entry.line with
    | some id => (graph.modify id fun node => { node with iterations := entry.count }, true)
    | none => (graph, false)
  else (graph, false)

end Graph

/-- Applies a line to all graphs of its unit; also counts the blocks that it names. -/
def ProfileEntry.apply (entry : ProfileEntry) (graphs : List Graph) :
    Traced (List Graph × Nat) :=
  let results := graphs.map (·.applyEntry entry)
  let named := results.countP (·.2)
  { value := (results.map (·.1), named)
    events :=
      if graphs.all (·.unit != entry.unit) then [.profileUnknownUnit entry.unit]
      else if named = 0 then [.profileUnknownLine entry.unit entry.line]
      else [] }

/-- What comes of applying a profile: the graphs, and the number of blocks named or the error. -/
structure ProfileResult where
  /-- The graphs with the counts of the lines before an error. -/
  graphs : List Graph
  applied : Except ProfileError Nat

/-- The lines are applied one after the other, so that a later one overrides an earlier one; the
first malformed line ends it. -/
def applyProfileFrom (line applied : Nat) (graphs : List Graph) :
    List (List Char) → Traced ProfileResult
  | [] => pure { graphs, applied := .ok applied }
  | raw :: rest =>
    match Text.words raw with
    | [] => applyProfileFrom (line + 1) applied graphs rest
    | location :: fields =>
      match ProfileEntry.ofFields? location fields with
      | none => pure { graphs, applied := .error { line, text := String.ofList raw } }
      | some entry => do
        let (graphs, named) ← entry.apply graphs
        applyProfileFrom (line + 1) (applied + named) graphs rest

/-- Puts the counts of a profile into the graphs and tells how many of them found a block. -/
def applyProfile (text : String) (graphs : List Graph) : Traced ProfileResult :=
  applyProfileFrom 1 0 graphs (Text.lines text.toList)

end RamOverlay
