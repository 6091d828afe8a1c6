import RamOverlay.Size.Oracle

/-!
# Sizes from a table

A size oracle that looks sizes up in a table and keeps a record of what it is asked. Main facts: a
query that has a size gets it, every other one fails, and both are recorded.
-/

namespace RamOverlay

/-- Fixed sizes, in place of an assembler. -/
structure SizeTable where
  sizes : List (String × Nat) := []
  default? : Option Nat := none
  deriving DecidableEq, Repr

/-- A computation that keeps a record of queries, the last one first. -/
abbrev Asking := StateM (List SizeQuery)

/-- The result of a computation, and its queries in their order. -/
def Asking.answer {α : Type} (x : Asking α) : α × List SizeQuery :=
  let (a, queries) := x.run []
  (a, queries.reverse)

namespace SizeTable

/-- The size that the table has for a query. -/
def size? (table : SizeTable) (query : SizeQuery) : Option Nat :=
  match table.sizes.lookup query.text with
  | some size => some size
  | none => table.default?

def oracle (table : SizeTable) : SizeOracle Asking := fun query => ExceptT.mk fun queries =>
  let result := match table.size? query with
    | some size => .ok size
    | none => .error { insn := query.text, reason := "no size" }
  (result, query :: queries)

theorem oracle_of_size? {table : SizeTable} {query : SizeQuery} {size : Nat}
    (h : table.size? query = some size) (queries : List SizeQuery) :
    (table.oracle query).run.run queries = (.ok size, query :: queries) := by
  show (table.oracle query queries) = _
  simp [oracle, ExceptT.mk, h]

theorem oracle_of_size?_eq_none {table : SizeTable} {query : SizeQuery}
    (h : table.size? query = none) (queries : List SizeQuery) :
    (table.oracle query).run.run queries
      = (.error { insn := query.text, reason := "no size" }, query :: queries) := by
  show (table.oracle query queries) = _
  simp [oracle, ExceptT.mk, h]

end SizeTable

end RamOverlay
