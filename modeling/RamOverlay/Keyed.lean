/-!
# Keyed tables

Finite maps as lists of pairs: the first pair of a key holds its value. Main facts: what `put`,
`adjust` and `insert` do to a look-up.
-/

namespace RamOverlay

/-- A finite map from keys to values, in the order in which the keys were first put. -/
abbrev Keyed (κ α : Type) := List (κ × α)

namespace Keyed

variable {κ α : Type} [DecidableEq κ]

/-- The first value with a key. -/
def get? (table : Keyed κ α) (key : κ) : Option α :=
  match table with
  | [] => none
  | (k, a) :: rest => if k = key then some a else get? rest key

/-- Sets the value of a key to what `f` makes of the value it has, if any. -/
def adjust (table : Keyed κ α) (key : κ) (f : Option α → α) : Keyed κ α :=
  match table with
  | [] => [(key, f none)]
  | (k, a) :: rest => if k = key then (k, f (some a)) :: rest else (k, a) :: adjust rest key f

/-- Sets the value of a key in its place, or at the end if it is new. -/
def put (table : Keyed κ α) (key : κ) (value : α) : Keyed κ α := table.adjust key fun _ => value

/-- Sets the value of a key in a table with ascending keys. -/
def insert [LT κ] [DecidableLT κ] (table : Keyed κ α) (key : κ) (value : α) : Keyed κ α :=
  match table with
  | [] => [(key, value)]
  | (k, a) :: rest =>
    if key < k then (key, value) :: (k, a) :: rest
    else if k = key then (k, value) :: rest
    else (k, a) :: insert rest key value

def keys (table : Keyed κ α) : List κ := table.map (·.1)

@[simp] theorem get?_nil (key : κ) : get? ([] : Keyed κ α) key = none := rfl

@[simp] theorem get?_adjust (table : Keyed κ α) (key k : κ) (f : Option α → α) :
    (table.adjust key f).get? k = if key = k then some (f (table.get? key)) else table.get? k := by
  induction table with
  | nil => simp [adjust, get?]
  | cons entry rest ih =>
    obtain ⟨k', a⟩ := entry
    rw [adjust]
    split
    · subst k'
      by_cases hk : key = k <;> simp [get?, hk]
    · by_cases hk : key = k <;> simp_all [get?]

@[simp] theorem get?_put (table : Keyed κ α) (key k : κ) (value : α) :
    (table.put key value).get? k = if key = k then some value else table.get? k := by
  simp [put]

@[simp] theorem get?_insert [LT κ] [DecidableLT κ] (table : Keyed κ α) (key k : κ) (value : α) :
    (table.insert key value).get? k = if key = k then some value else table.get? k := by
  induction table with
  | nil => simp [insert, get?]
  | cons entry rest ih =>
    obtain ⟨k', a⟩ := entry
    rw [insert]
    split
    · simp [get?]
    · split
      · subst k'
        by_cases hk : key = k <;> simp [get?, hk]
      · by_cases hk : key = k <;> simp_all [get?]

end Keyed

end RamOverlay
