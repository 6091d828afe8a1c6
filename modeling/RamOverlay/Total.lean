/-!
# Totals

The sum of a quantity over a list. Main fact: totals add up over parts of a list.
-/

namespace RamOverlay

variable {α : Type}

def totalOf (f : α → Nat) : List α → Nat
  | [] => 0
  | a :: as => f a + totalOf f as

@[simp] theorem totalOf_nil (f : α → Nat) : totalOf f [] = 0 := rfl

@[simp] theorem totalOf_cons (f : α → Nat) (a : α) (as : List α) :
    totalOf f (a :: as) = f a + totalOf f as := rfl

@[simp] theorem totalOf_append (f : α → Nat) (as bs : List α) :
    totalOf f (as ++ bs) = totalOf f as + totalOf f bs := by
  induction as with
  | nil => simp
  | cons a as ih => simp [ih, Nat.add_assoc]

end RamOverlay
