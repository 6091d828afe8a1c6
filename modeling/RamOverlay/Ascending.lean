/-!
# Ascending lists

Finite sets kept as ascending lists without repetition. Main facts: `insert` adds exactly its
argument, and it keeps the order if that is a strict linear one.
-/

namespace RamOverlay.Ascending

variable {α : Type} [LT α] [DecidableLT α] [DecidableEq α]

/-- Adds `a` at its place unless it is there. -/
def insert (a : α) : List α → List α
  | [] => [a]
  | b :: bs =>
    if a < b then a :: b :: bs
    else if a = b then b :: bs
    else b :: insert a bs

/-- The elements of a list, ascending and each once. -/
def ofList (as : List α) : List α := as.foldr insert []

@[simp] theorem mem_insert (a b : α) (bs : List α) : b ∈ insert a bs ↔ b = a ∨ b ∈ bs := by
  induction bs with
  | nil => simp [insert]
  | cons c cs ih =>
    rw [insert]
    split
    · simp
    · split
      · simp_all
      · simp only [List.mem_cons, ih]
        grind

@[simp] theorem mem_ofList (a : α) (as : List α) : a ∈ ofList as ↔ a ∈ as := by
  induction as with
  | nil => simp [ofList]
  | cons b bs ih => simp [ofList] at ih ⊢; simp [ih]

section Order

variable (trans : ∀ a b c : α, a < b → b < c → a < c) (total : ∀ a b : α, ¬a < b → a ≠ b → b < a)
include trans total

theorem pairwise_insert (a : α) {bs : List α} (h : bs.Pairwise (· < ·)) :
    (insert a bs).Pairwise (· < ·) := by
  induction bs with
  | nil => simp [insert]
  | cons b bs ih =>
    obtain ⟨hb, hbs⟩ := List.pairwise_cons.1 h
    rw [insert]
    split
    · rename_i hab
      refine List.pairwise_cons.2 ⟨fun c hc => ?_, h⟩
      rcases List.mem_cons.1 hc with rfl | hc
      · exact hab
      · exact trans a b c hab (hb c hc)
    · split
      · exact h
      · -- `b` stays in front, so it has to be below `a` too
        rename_i hab hne
        refine List.pairwise_cons.2 ⟨fun c hc => ?_, ih hbs⟩
        rcases (mem_insert a c bs).1 hc with rfl | hc
        · exact total c b hab hne
        · exact hb c hc

theorem pairwise_ofList (as : List α) : (ofList as).Pairwise (· < ·) := by
  induction as with
  | nil => simp [ofList]
  | cons a as ih => exact pairwise_insert trans total a ih

end Order

end RamOverlay.Ascending
