import RamOverlay.Text.Numeral

/-!
# Execution counts

Counts of executions are natural numbers up to a greatest count; products that exceed it are cut to
it. Main facts: cutting is monotone, and so are cut products.
-/

namespace RamOverlay.Count

/-- The greatest count. -/
def greatest : Nat := Text.doubleLimit - 1

def cut (n : Nat) : Nat := min n greatest

def mul (a b : Nat) : Nat := cut (a * b)

def pow (a n : Nat) : Nat := cut (Nat.pow a n)

def succ (a : Nat) : Nat := cut (a + 1)

theorem cut_le (n : Nat) : cut n ≤ greatest := Nat.min_le_right ..

theorem cut_mono {a b : Nat} (h : a ≤ b) : cut a ≤ cut b := by
  unfold cut
  omega

theorem mul_mono {a b c d : Nat} (h : a ≤ c) (h' : b ≤ d) : mul a b ≤ mul c d :=
  cut_mono (Nat.mul_le_mul h h')

end RamOverlay.Count
