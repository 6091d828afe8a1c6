/-!
# UTF-8

Texts as bytes. `encode` writes a text. `units` reads bytes, some of which may be ill-formed: a byte
that starts no character is one ill-formed part, and so are the bytes of a character that is broken
off. `decode` puts the replacement character for each of these parts, and `decode?` refuses them.
Main fact: what `encode` writes is read back by both.
-/

namespace RamOverlay.Text.Utf8

/-- A byte behind the first one of a character, with the six lowest bits of a number. -/
def nextByte (n : Nat) : UInt8 := UInt8.ofNat (0x80 + n % 0x40)

/-- The bytes of a character: one to four of them, by its size. -/
def encodeNumber (n : Nat) : List UInt8 :=
  if n < 0x80 then [UInt8.ofNat n]
  else if n < 0x800 then [UInt8.ofNat (0xc0 + n / 0x40), nextByte n]
  else if n < 0x10000 then
    [UInt8.ofNat (0xe0 + n / 0x1000), nextByte (n / 0x40), nextByte n]
  else
    [UInt8.ofNat (0xf0 + n / 0x40000), nextByte (n / 0x1000), nextByte (n / 0x40), nextByte n]

def encode (s : String) : List UInt8 := s.toList.flatMap fun c => encodeNumber c.toNat

/-- What the first byte of a character tells about it. -/
structure Lead where
  /-- How many bytes follow. -/
  following : Nat
  /-- The bits of the character in the first byte, as a number. -/
  bits : Nat
  /-- The least second byte. -/
  low : Nat := 0x80
  /-- The greatest second byte. -/
  high : Nat := 0xbf
  deriving DecidableEq, Repr

/-- Reads the first byte of a character. The bounds of the second byte leave out long spellings of
smaller characters, surrogates and what lies beyond the last character. -/
def lead? (b : Nat) : Option Lead :=
  if b < 0x80 then some { following := 0, bits := b }
  else if b < 0xc2 then none
  else if b < 0xe0 then some { following := 1, bits := b - 0xc0 }
  else if b = 0xe0 then some { following := 2, bits := 0, low := 0xa0 }
  else if b = 0xed then some { following := 2, bits := 0xd, high := 0x9f }
  else if b < 0xf0 then some { following := 2, bits := b - 0xe0 }
  else if b = 0xf0 then some { following := 3, bits := 0, low := 0x90 }
  else if b < 0xf4 then some { following := 3, bits := b - 0xf0 }
  else if b = 0xf4 then some { following := 3, bits := 4, high := 0x8f }
  else none

/-- Reads the bytes that have to follow, the first of them between two bounds. Gives the number of
the character, unless one is missing, and the bytes that were not used. -/
def follow (low high bits : Nat) : Nat → List UInt8 → Option Nat × List UInt8
  | 0, bytes => (some bits, bytes)
  | _ + 1, [] => (none, [])
  | count + 1, b :: bytes =>
    if low ≤ b.toNat ∧ b.toNat ≤ high then
      follow 0x80 0xbf (0x40 * bits + b.toNat % 0x40) count bytes
    else (none, b :: bytes)

theorem length_follow_le (low high bits count : Nat) (bytes : List UInt8) :
    (follow low high bits count bytes).2.length ≤ bytes.length := by
  induction count generalizing low high bits bytes with
  | zero => simp [follow]
  | succ count ih =>
    cases bytes with
    | nil => simp [follow]
    | cons b bytes =>
      rw [follow]
      split
      · exact Nat.le_succ_of_le (ih ..)
      · exact Nat.le_refl _

/-- The characters of some bytes; an ill-formed part is none. -/
def units : List UInt8 → List (Option Char)
  | [] => []
  | b :: bytes =>
    match lead? b.toNat with
    | none => none :: units bytes
    | some lead =>
      let read := follow lead.low lead.high lead.bits lead.following bytes
      read.1.map Char.ofNat :: units read.2
termination_by bytes => bytes.length
decreasing_by
  · exact Nat.lt_succ_self _
  · exact Nat.lt_succ_of_le (length_follow_le ..)

/-- Reads bytes as a text; each stretch that is no character gives a replacement character. -/
def decode (bytes : List UInt8) : String :=
  String.ofList ((units bytes).map (·.getD '\ufffd'))

/-- The text of some bytes, unless one of them is ill-formed. -/
def decode? (bytes : List UInt8) : Option String := ((units bytes).mapM id).map String.ofList

theorem toNat_cases (c : Char) : c.toNat < 0xd800 ∨ (0xe000 ≤ c.toNat ∧ c.toNat < 0x110000) := by
  have h := c.valid
  have hn : c.val.toNat = c.toNat := rfl
  simp only [UInt32.isValidChar, Nat.isValidChar, hn] at h
  omega

theorem toNat_ofNat {n : Nat} (h : n < 0x100) : (UInt8.ofNat n).toNat = n := by
  rw [UInt8.toNat_ofNat']
  omega

theorem units_cons {b : UInt8} {bytes rest : List UInt8} {lead : Lead} {n : Nat}
    (hl : lead? b.toNat = some lead)
    (hf : follow lead.low lead.high lead.bits lead.following bytes = (some n, rest)) :
    units (b :: bytes) = some (Char.ofNat n) :: units rest := by
  rw [units]
  simp [hl, hf]

theorem follow_nextByte {low high bits n : Nat} (count : Nat) (bytes : List UInt8)
    (hl : low ≤ 0x80 + n % 0x40) (hh : 0x80 + n % 0x40 ≤ high) :
    follow low high bits (count + 1) (nextByte n :: bytes)
      = follow 0x80 0xbf (0x40 * bits + n % 0x40) count bytes := by
  have hn : (nextByte n).toNat = 0x80 + n % 0x40 := toNat_ofNat (by omega)
  rw [follow, hn, if_pos ⟨hl, hh⟩]
  congr 1
  omega

/-- The first of three bytes. The second is within its bounds, as no surrogate is written. -/
theorem exists_lead_three {n : Nat} (hle : 0x800 ≤ n)
    (hlt : n < 0xd800 ∨ (0xe000 ≤ n ∧ n < 0x10000)) :
    ∃ lead, lead? (UInt8.ofNat (0xe0 + n / 0x1000)).toNat = some lead ∧ lead.following = 2 ∧
      lead.bits = n / 0x1000 ∧ lead.low ≤ 0x80 + n / 0x40 % 0x40 ∧
        0x80 + n / 0x40 % 0x40 ≤ lead.high := by
  rw [toNat_ofNat (by omega), lead?, if_neg (by omega), if_neg (by omega), if_neg (by omega)]
  split
  · exact ⟨_, rfl, rfl, by simp only; omega, by simp only; omega, by simp only; omega⟩
  split
  · exact ⟨_, rfl, rfl, by simp only; omega, by simp only; omega, by simp only; omega⟩
  · rw [if_pos (by omega)]
    exact ⟨_, rfl, rfl, by simp only; omega, by simp only; omega, by simp only; omega⟩

/-- The first of four bytes. The second is within its bounds, as no character is beyond the last. -/
theorem exists_lead_four {n : Nat} (hle : 0x10000 ≤ n) (hlt : n < 0x110000) :
    ∃ lead, lead? (UInt8.ofNat (0xf0 + n / 0x40000)).toNat = some lead ∧ lead.following = 3 ∧
      lead.bits = n / 0x40000 ∧ lead.low ≤ 0x80 + n / 0x1000 % 0x40 ∧
        0x80 + n / 0x1000 % 0x40 ≤ lead.high := by
  rw [toNat_ofNat (by omega), lead?, if_neg (by omega), if_neg (by omega), if_neg (by omega),
    if_neg (by omega), if_neg (by omega), if_neg (by omega)]
  split
  · exact ⟨_, rfl, rfl, by simp only; omega, by simp only; omega, by simp only; omega⟩
  split
  · exact ⟨_, rfl, rfl, by simp only; omega, by simp only; omega, by simp only; omega⟩
  · rw [if_pos (by omega)]
    exact ⟨_, rfl, rfl, by simp only; omega, by simp only; omega, by simp only; omega⟩

/-- The bytes of a character are read as the character, one case for each length. -/
theorem units_encodeNumber {n : Nat} (h : n < 0xd800 ∨ (0xe000 ≤ n ∧ n < 0x110000))
    (bytes : List UInt8) :
    units (encodeNumber n ++ bytes) = some (Char.ofNat n) :: units bytes := by
  rw [encodeNumber]
  split
  · have hl : lead? (UInt8.ofNat n).toNat = some { following := 0, bits := n } := by
      rw [toNat_ofNat (by omega), lead?, if_pos (by omega)]
    exact units_cons hl rfl
  split
  · -- two bytes: the lead gives the high bits
    have hl : lead? (UInt8.ofNat (0xc0 + n / 0x40)).toNat
        = some { following := 1, bits := n / 0x40 } := by
      rw [toNat_ofNat (by omega), lead?, if_neg (by omega), if_neg (by omega), if_pos (by omega),
        Nat.add_sub_cancel_left]
    refine units_cons hl ?_
    show follow 0x80 0xbf (n / 0x40) (0 + 1) (nextByte n :: bytes) = _
    rw [follow_nextByte 0 _ (by omega) (by omega), follow, Nat.div_add_mod]
  split
  · obtain ⟨lead, hl, hf, hb, hlow, hhigh⟩ := @exists_lead_three n (by omega) (by omega)
    refine units_cons hl ?_
    rw [hf, hb]
    show follow lead.low lead.high _ (1 + 1) (nextByte (n / 0x40) :: nextByte n :: bytes) = _
    rw [follow_nextByte 1 _ hlow hhigh, follow_nextByte 0 _ (by omega) (by omega), follow]
    congr 2
    omega
  · obtain ⟨lead, hl, hf, hb, hlow, hhigh⟩ := @exists_lead_four n (by omega) (by omega)
    refine units_cons hl ?_
    rw [hf, hb]
    show follow lead.low lead.high _ (2 + 1)
      (nextByte (n / 0x1000) :: nextByte (n / 0x40) :: nextByte n :: bytes) = _
    rw [follow_nextByte 2 _ hlow hhigh, follow_nextByte 1 _ (by omega) (by omega),
      follow_nextByte 0 _ (by omega) (by omega), follow]
    congr 2
    omega

theorem units_encode (s : String) : units (encode s) = s.toList.map some := by
  unfold encode
  induction s.toList with
  | nil => simp [units]
  | cons c cs ih =>
    rw [List.flatMap_cons, units_encodeNumber (toNat_cases c), ih, List.map_cons,
      Char.ofNat_toNat]

/-- What was written is read back. -/
theorem decode_encode (s : String) : decode (encode s) = s := by
  have h : ((·.getD '\ufffd') ∘ some : Char → Char) = id := rfl
  rw [decode, units_encode, List.map_map, h, List.map_id, String.ofList_toList]

/-- What was written is well-formed. -/
theorem decode?_encode (s : String) : decode? (encode s) = some s := by
  have h : ∀ cs : List Char, (cs.map some).mapM id = some cs := fun cs => by
    induction cs with
    | nil => rfl
    | cons c cs ih => simp [List.mapM_cons, ih]
  rw [decode?, units_encode, h, Option.map_some, String.ofList_toList]

end RamOverlay.Text.Utf8
