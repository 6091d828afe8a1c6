/-!
# Decimal numerals

Readers for numerals that must fit a width: a natural number may carry a plus sign, an integer
either sign; an empty text, a sign alone, any other character and a value out of range are refused.
`decimal` writes a natural number. Main fact: what `decimal` writes is read back.
-/

namespace RamOverlay.Text

/-- One more than the largest 32-bit word. -/
def wordLimit : Nat := 0x100000000

/-- One more than the largest 64-bit word. -/
def doubleLimit : Nat := 0x10000000000000000

def digit? (c : Char) : Option Nat :=
  if '0' ≤ c ∧ c ≤ '9' then some (c.toNat - 48) else none

/-- Reads digits after a number already read. -/
def digitsFrom? (value : Nat) : List Char → Option Nat
  | [] => some value
  | c :: cs => (digit? c).bind fun d => digitsFrom? (10 * value + d) cs

def digits? : List Char → Option Nat
  | [] => none
  | c :: cs => digitsFrom? 0 (c :: cs)

/-- A number below a limit; a plus sign may stand before it. -/
def natural? (limit : Nat) (cs : List Char) : Option Nat :=
  let digits := match cs with
    | '+' :: rest => rest
    | cs => cs
  (digits? digits).filter (· < limit)

/-- Reads an integer from `-limit` to `limit - 1`. -/
def integer? (limit : Nat) : List Char → Option Int
  | '-' :: rest => ((digits? rest).filter (· ≤ limit)).map fun n => -(n : Int)
  | '+' :: rest => ((digits? rest).filter (· < limit)).map fun n => (n : Int)
  | cs => ((digits? cs).filter (· < limit)).map fun n => (n : Int)

/-- Reads a string as a natural number that fits 64 bits. -/
def double? (s : String) : Option Nat := natural? doubleLimit s.toList

def digitChar (d : Nat) : Char := Char.ofNat (48 + d % 10)

/-- The digits of `n`, written before `rest`; `fuel` bounds their number. -/
def decimalBefore : Nat → Nat → List Char → List Char
  | 0, _, rest => rest
  | fuel + 1, n, rest =>
    if n < 10 then digitChar n :: rest else decimalBefore fuel (n / 10) (digitChar n :: rest)

/-- The digits of a number, the highest first. A number has no more of them than its successor
tells. -/
def decimalDigits (n : Nat) : List Char := decimalBefore (n + 1) n []

def decimal (n : Nat) : String := String.ofList (decimalDigits n)

def decimalInt : Int → String
  | .ofNat n => decimal n
  | .negSucc n => "-" ++ decimal (n + 1)

theorem digit?_digitChar (d : Nat) : digit? (digitChar d) = some (d % 10) := by
  have h : d % 10 < 10 := Nat.mod_lt _ (by omega)
  unfold digitChar
  generalize d % 10 = e at h
  match e, h with
  | 0, _ | 1, _ | 2, _ | 3, _ | 4, _ | 5, _ | 6, _ | 7, _ | 8, _ | 9, _ => decide

theorem digitsFrom?_decimalBefore (fuel n : Nat) (rest : List Char) (h : n < fuel) (v : Nat) :
    ∃ scale, digitsFrom? v (decimalBefore fuel n rest) = digitsFrom? (v * scale + n) rest := by
  induction fuel generalizing n rest with
  | zero => omega
  | succ fuel ih =>
    rw [decimalBefore]
    split
    · refine ⟨10, ?_⟩
      rw [digitsFrom?, digit?_digitChar, Option.bind_some]
      congr 1
      omega
    · -- The places in front of the last one first, and the last one behind them.
      obtain ⟨scale, hs⟩ := ih (n / 10) (digitChar n :: rest) (by omega)
      refine ⟨10 * scale, ?_⟩
      rw [hs, digitsFrom?, digit?_digitChar, Option.bind_some]
      congr 1
      have hp : v * (10 * scale) = 10 * (v * scale) := Nat.mul_left_comm ..
      omega

theorem decimalBefore_ne_nil (fuel n : Nat) (rest : List Char) (h : 0 < fuel) :
    decimalBefore fuel n rest ≠ [] := by
  induction fuel generalizing n rest with
  | zero => omega
  | succ fuel ih =>
    rw [decimalBefore]
    split
    · simp
    · cases fuel with
      | zero => simp [decimalBefore]
      | succ fuel => exact ih _ _ (by omega)

/-- The digits of a number are read back as the number. -/
theorem digits?_decimalDigits (n : Nat) : digits? (decimalDigits n) = some n := by
  have hne := decimalBefore_ne_nil (n + 1) n [] (by omega)
  obtain ⟨scale, hs⟩ := digitsFrom?_decimalBefore (n + 1) n [] (by omega) 0
  unfold decimalDigits
  cases hd : decimalBefore (n + 1) n [] with
  | nil => exact absurd hd hne
  | cons c cs =>
    rw [hd] at hs
    rw [digits?, hs, digitsFrom?, Nat.zero_mul, Nat.zero_add]

end RamOverlay.Text
