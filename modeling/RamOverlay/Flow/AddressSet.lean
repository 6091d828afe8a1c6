/-!
# Sets of addresses

A set of numbers below a bound, one flag for each of them. Numbers beyond the bound are never in
the set. Main fact: `insert` adds its argument, if it is below the bound, and nothing else.
-/

namespace RamOverlay

/-- A set of numbers below a bound. -/
structure AddressSet where
  /-- For every number below the bound, whether it is in the set. -/
  flags : Array Bool
  deriving DecidableEq, Repr

namespace AddressSet

def empty (bound : Nat) : AddressSet := ⟨Array.replicate bound false⟩

def bound (set : AddressSet) : Nat := set.flags.size

def contains (set : AddressSet) (a : Nat) : Bool := set.flags.getD a false

/-- A number that is not below the bound is not added. -/
def insert (set : AddressSet) (a : Nat) : AddressSet := ⟨set.flags.setIfInBounds a true⟩

/-- How many numbers are in the set. -/
def card (set : AddressSet) : Nat := set.flags.toList.count true

@[simp] theorem bound_empty (bound : Nat) : (empty bound).bound = bound := by
  simp [empty, AddressSet.bound]

@[simp] theorem bound_insert (set : AddressSet) (a : Nat) : (set.insert a).bound = set.bound := by
  simp [insert, bound]

@[simp] theorem contains_empty (bound a : Nat) : (empty bound).contains a = false := by
  simp [empty, contains, Array.getD_eq_getD_getElem?, Array.getElem?_replicate]
  split <;> rfl

@[simp] theorem contains_insert (set : AddressSet) (a b : Nat) :
    (set.insert a).contains b = ((b == a && decide (a < set.bound)) || set.contains b) := by
  simp only [insert, contains, bound, Array.getD_eq_getD_getElem?, Array.getElem?_setIfInBounds]
  by_cases h : a = b
  · subst h
    by_cases hb : a < set.flags.size
    · simp [hb]
    · simp [hb]
  · have : ¬ b = a := fun h' => h h'.symm
    simp [h, this]

theorem lt_bound_of_contains {set : AddressSet} {a : Nat} (h : set.contains a = true) :
    a < set.bound := by
  unfold contains at h
  unfold bound
  rw [Array.getD_eq_getD_getElem?] at h
  by_cases hb : a < set.flags.size
  · exact hb
  · simp [hb] at h

end AddressSet

end RamOverlay
