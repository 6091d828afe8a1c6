import Mathlib.Data.Nat.Digits.Defs
import RamOverlay.Text.Numeral

/-!
# What numerals are read as

The numerals that the readers accept, by their place values and signs and not by a way to read them.

* **`Denotes`**: digits and the number that they stand for.
* **`natural?_eq_some_iff`**, **`integer?_eq_some_iff`**: a reader accepts the numerals of its
  numbers, and no other text. The induction is on the digits, after a number already read.
-/

namespace RamOverlay.Text

variable {c : Char} {cs : List Char} {limit n value : Nat}

/-- The texts of one digit or more, with the numbers they stand for. -/
structure Denotes (cs : List Char) (n : Nat) : Prop where
  ne_nil : cs ≠ []
  digits : ∀ c ∈ cs, '0' ≤ c ∧ c ≤ '9'
  value : Nat.ofDigits 10 (cs.reverse.map fun c => c.toNat - '0'.toNat) = n

/-- The texts of natural numbers below a limit; a plus sign may stand in front. -/
def IsNatural (limit : Nat) (cs : List Char) (n : Nat) : Prop :=
  ∃ digits, (cs = digits ∨ cs = '+' :: digits) ∧ Denotes digits n ∧ n < limit

/-- The texts of integers from minus a limit to below it; a sign may stand in front. -/
def IsInteger (limit : Nat) (cs : List Char) (i : Int) : Prop :=
  (∃ digits n, cs = '-' :: digits ∧ Denotes digits n ∧ n ≤ limit ∧ i = -(n : Int)) ∨
    ∃ n : Nat, IsNatural limit cs n ∧ i = (n : Int)

theorem digit?_eq_some_iff {d : Nat} :
    digit? c = some d ↔ ('0' ≤ c ∧ c ≤ '9') ∧ c.toNat - '0'.toNat = d := by
  unfold digit?
  split
  next h => simp [h]
  next h => simp [h]

/-- Digits add to what was read before by their places. -/
theorem digitsFrom?_eq_some_iff : digitsFrom? value cs = some n ↔ (∀ c ∈ cs, '0' ≤ c ∧ c ≤ '9') ∧
    value * 10 ^ cs.length +
      Nat.ofDigits 10 (cs.reverse.map fun c => c.toNat - '0'.toNat) = n := by
  induction cs generalizing value with
  | nil => simp [digitsFrom?]
  | cons c cs ih =>
    rw [digitsFrom?, Option.bind_eq_some_iff, List.forall_mem_cons, List.reverse_cons,
      List.map_append, Nat.ofDigits_append, List.length_map, List.length_reverse,
      List.length_cons, List.map_singleton, Nat.ofDigits_singleton]
    -- the value so far moves up one place for each digit behind it
    have hplaces : ∀ d rest : Nat, (10 * value + d) * 10 ^ cs.length + rest =
        value * 10 ^ (cs.length + 1) + (rest + 10 ^ cs.length * d) := fun d rest => by ring
    constructor
    · rintro ⟨d, hd, hrest⟩
      obtain ⟨hc, rfl⟩ := digit?_eq_some_iff.1 hd
      obtain ⟨hcs, hvalue⟩ := ih.1 hrest
      exact ⟨⟨hc, hcs⟩, by rw [← hplaces, hvalue]⟩
    · rintro ⟨⟨hc, hcs⟩, hvalue⟩
      exact ⟨_, digit?_eq_some_iff.2 ⟨hc, rfl⟩, ih.2 ⟨hcs, by rw [hplaces, hvalue]⟩⟩

/-- The reader takes exactly the numerals, for the numbers that they denote. -/
theorem digits?_eq_some_iff : digits? cs = some n ↔ Denotes cs n := by
  cases cs with
  | nil => exact ⟨fun h => (Option.some_ne_none n h.symm).elim, fun h => absurd rfl h.ne_nil⟩
  | cons c cs =>
    rw [digits?, digitsFrom?_eq_some_iff, Nat.zero_mul, Nat.zero_add]
    exact ⟨fun h => ⟨List.cons_ne_nil c cs, h.1, h.2⟩, fun h => ⟨h.digits, h.value⟩⟩

/-- A sign is no digit. -/
theorem Denotes.ne_sign (h : Denotes (c :: cs) n) : c ≠ '+' ∧ c ≠ '-' := by
  have hdigit := h.digits c List.mem_cons_self
  constructor
  · rintro rfl
    exact absurd hdigit (by decide)
  · rintro rfl
    exact absurd hdigit (by decide)

theorem filter_digits?_eq_some_iff {p : Nat → Bool} :
    (digits? cs).filter p = some n ↔ Denotes cs n ∧ p n = true := by
  rw [Option.filter_eq_some_iff, digits?_eq_some_iff]

/-- The same with a sign, below a limit. -/
theorem natural?_eq_some_iff : natural? limit cs = some n ↔ IsNatural limit cs n := by
  unfold natural?
  rw [filter_digits?_eq_some_iff, decide_eq_true_eq]
  constructor
  · rintro ⟨hdigits, hlt⟩
    split at hdigits
    next digits => exact ⟨digits, .inr rfl, hdigits, hlt⟩
    next => exact ⟨cs, .inl rfl, hdigits, hlt⟩
  · rintro ⟨digits, rfl | rfl, hdigits, hlt⟩
    · -- Without a sign the digits are read as they stand: a sign is no digit.
      refine ⟨?_, hlt⟩
      split
      next => exact absurd rfl hdigits.ne_sign.1
      next => exact hdigits
    · exact ⟨hdigits, hlt⟩

theorem map_natCast (read : Option Nat) (f : Int → Int) :
    (do let n ← read; pure (n : Int)).map f = read.map fun n : Nat => f n := by
  cases read <;> rfl

/-- What stands behind a minus sign is negated. -/
theorem integer?_minus {digits : List Char} : integer? limit ('-' :: digits) =
    ((digits? digits).filter (· ≤ limit)).map fun n : Nat => -(n : Int) :=
  map_natCast ((digits? digits).filter (· ≤ limit)) _

/-- Without a minus sign, an integer is a natural number. -/
theorem integer?_of_not_minus (h : ∀ digits, cs ≠ '-' :: digits) :
    integer? limit cs = (natural? limit cs).map fun n : Nat => (n : Int) := by
  unfold integer?
  split
  next digits => exact absurd rfl (h digits)
  next => exact map_natCast _ id
  next hplus =>
    -- With neither sign the digits are read, as a natural number without a sign is.
    have hread : natural? limit cs = (digits? cs).filter (· < limit) := by
      unfold natural?
      split
      next => exact absurd rfl (hplus _)
      next => rfl
    rw [hread]
    exact map_natCast ((digits? cs).filter (· < limit)) id

/-- The same with either sign. -/
theorem integer?_eq_some_iff {i : Int} :
    integer? limit cs = some i ↔ IsInteger limit cs i := by
  by_cases hminus : ∃ digits, cs = '-' :: digits
  · obtain ⟨digits, rfl⟩ := hminus
    simp only [integer?_minus, Option.map_eq_some_iff, filter_digits?_eq_some_iff,
      decide_eq_true_eq]
    constructor
    · rintro ⟨n, ⟨hdigits, hle⟩, rfl⟩
      exact .inl ⟨digits, n, rfl, hdigits, hle, rfl⟩
    · -- digits start with no sign, so that only the negative form fits
      rintro (⟨digits', n, heq, hdigits, hle, rfl⟩ | ⟨n, ⟨digits', heq | heq, hdigits, -⟩, -⟩)
      · obtain rfl := (List.cons.inj heq).2
        exact ⟨n, ⟨hdigits, hle⟩, rfl⟩
      · subst heq
        exact absurd rfl hdigits.ne_sign.2
      · cases heq
  · have hplain : ∀ digits, cs ≠ '-' :: digits := fun digits heq => hminus ⟨digits, heq⟩
    rw [integer?_of_not_minus hplain, Option.map_eq_some_iff]
    constructor
    · rintro ⟨n, hn, rfl⟩
      exact .inr ⟨n, natural?_eq_some_iff.1 hn, rfl⟩
    · rintro (⟨digits, _, heq, -⟩ | ⟨n, hn, rfl⟩)
      · exact absurd heq (hplain digits)
      · exact ⟨n, natural?_eq_some_iff.2 hn, rfl⟩

end RamOverlay.Text
