import RamOverlay.Keyed

/-!
# Keys of tables

Which keys a table has, and tables with each key once, in which a look-up finds any pair.

* **`Keyed.nodup_keys_adjust`**: putting a value keeps each key once.
* **`Keyed.get?_eq_some_iff`**: then a look-up finds what is in the table.
-/

namespace RamOverlay.Keyed

variable {κ α : Type} [DecidableEq κ] {table : Keyed κ α} {key : κ}

theorem mem_keys_iff : key ∈ table.keys ↔ (table.get? key).isSome := by
  induction table with
  | nil => simp [keys]
  | cons entry rest ih =>
    obtain ⟨k, a⟩ := entry
    rw [get?]
    by_cases hk : k = key
    · simp [keys, hk]
    · have hk' : key ≠ k := Ne.symm hk
      simpa [keys, hk, hk'] using ih

/-- A change of a key adds it if it is new, at the end. -/
theorem keys_adjust (table : Keyed κ α) (key : κ) (f : Option α → α) :
    (table.adjust key f).keys = if key ∈ table.keys then table.keys else table.keys ++ [key] := by
  induction table with
  | nil => rfl
  | cons entry rest ih =>
    obtain ⟨k, a⟩ := entry
    rw [adjust]
    -- the first entry has the key, or it stays and the rest is changed
    by_cases hk : k = key
    · subst k
      simp [keys]
    · rw [if_neg hk]
      show k :: Keyed.keys (adjust rest key f) = _
      rw [ih]
      by_cases hmem : key ∈ Keyed.keys rest <;> simp_all [keys, eq_comm]

theorem nodup_keys_adjust (h : table.keys.Nodup) (key : κ) (f : Option α → α) :
    (table.adjust key f).keys.Nodup := by
  rw [keys_adjust]
  split
  next => exact h
  next hnew =>
    rw [List.nodup_append]
    refine ⟨h, by simp, fun a ha b hb => ?_⟩
    rintro rfl
    exact hnew (List.mem_singleton.1 hb ▸ ha)

/-- A look-up finds what is in the table. -/
theorem get?_eq_some_iff (h : table.keys.Nodup) {a : α} :
    table.get? key = some a ↔ (key, a) ∈ table := by
  induction table with
  | nil => simp
  | cons entry rest ih =>
    obtain ⟨k, b⟩ := entry
    obtain ⟨hk, hrest⟩ := List.nodup_cons.1 h
    rw [get?, List.mem_cons, Prod.mk.injEq]
    by_cases heq : k = key
    · subst heq
      -- the key is not among the rest, so no other value stands for it
      have hnot : (k, a) ∉ rest := fun hmem =>
        hk (List.mem_map.2 ⟨(k, a), hmem, rfl⟩)
      simp [hnot, eq_comm]
    · simp [heq, Ne.symm heq, ih hrest]

end RamOverlay.Keyed
