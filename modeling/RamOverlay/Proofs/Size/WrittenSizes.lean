import RamOverlay.Proofs.Keyed
import RamOverlay.Proofs.Text.Pieces
import RamOverlay.Size.Cache
import Mathlib.Data.List.DropRight
import Mathlib.Data.List.Forall2

/-!
# Written sizes are read back

What `write` makes of sizes is a text that `read?` turns into the same sizes. Each part of the text
is read back with whatever stands behind it left over: the characters of a key, a key, a size, a
member, and then, by induction on the members, the object. Members come in ascending order, so that
each one goes to the end of the table that is read so far.

* **`CacheText.pieces?_escape`**: an escaped character is read as one piece.
* **`CacheText.members?_written`**: the members that follow the ones read so far are added to them.
* **`CacheText.read?_write`**: the round trip, for the sizes that a table of 32-bit sizes by
  ascending texts can hold. `CacheText.Writable` says this of a table, and what is read is always
  such a one.
-/

namespace RamOverlay

/-! ## Tables in ascending order -/

namespace Keyed

variable {α : Type} {table : Keyed String α} {key k : String} {value : α}

/-- What is in a table after an insertion was there before, or is new. -/
theorem mem_insert {entry : String × α} (h : entry ∈ table.insert key value) :
    entry = (key, value) ∨ entry ∈ table := by
  induction table with
  | nil => exact .inl (List.mem_singleton.1 h)
  | cons first rest ih =>
    rw [insert] at h
    -- The insertion stops at the first entry, replaces it, or goes on behind it.
    split at h
    · exact List.mem_cons.1 h
    · split at h
      next hk =>
        rcases List.mem_cons.1 h with rfl | h
        · exact .inl (hk ▸ rfl)
        · exact .inr (List.mem_cons_of_mem first h)
      next =>
        rcases List.mem_cons.1 h with rfl | h
        · exact .inr List.mem_cons_self
        · exact (ih h).imp_right (List.mem_cons_of_mem first)

/-- Insertion keeps the keys in order. -/
theorem pairwise_insert (h : table.Pairwise (·.1 < ·.1)) :
    (table.insert key value).Pairwise (·.1 < ·.1) := by
  induction table with
  | nil => exact List.pairwise_singleton _ _
  | cons first rest ih =>
    obtain ⟨hfirst, hrest⟩ := List.pairwise_cons.1 h
    rw [insert]
    split
    next hlt =>
      refine List.pairwise_cons.2 ⟨fun entry hentry => ?_, h⟩
      rcases List.mem_cons.1 hentry with rfl | hentry
      · exact hlt
      · exact String.lt_trans hlt (hfirst entry hentry)
    next hge =>
      split
      next => exact List.pairwise_cons.2 ⟨hfirst, hrest⟩
      next hne =>
        refine List.pairwise_cons.2 ⟨fun entry hentry => ?_, ih hrest⟩
        rcases mem_insert hentry with rfl | hentry
        · -- the key is neither below the first one nor the same, so it is above
          exact Decidable.byContradiction fun hge' =>
            hne (String.le_antisymm (String.not_lt.1 hge) (String.not_lt.1 hge'))
        · exact hfirst entry hentry

/-- A key above all others goes to the end. -/
theorem insert_of_forall_lt (h : ∀ entry ∈ table, entry.1 < key) :
    table.insert key value = table ++ [(key, value)] := by
  induction table with
  | nil => rfl
  | cons first rest ih =>
    have hlt : first.1 < key := h first List.mem_cons_self
    have hne : first.1 ≠ key := fun heq => String.lt_irrefl key (heq ▸ hlt)
    rw [insert, if_neg (String.lt_asymm hlt), if_neg hne,
      ih fun entry hentry => h entry (List.mem_cons_of_mem first hentry)]
    rfl

end Keyed

namespace CacheText

/-- A table as the text of a cache can hold it. -/
structure Writable (sizes : Sizes) : Prop where
  ascending : sizes.Pairwise (·.1 < ·.1)
  below : ∀ entry ∈ sizes, entry.2 < Text.wordLimit

theorem Writable.nil : Writable [] := ⟨List.Pairwise.nil, fun _ h => nomatch h⟩

/-- A size below the limit may be inserted. -/
theorem Writable.insert {sizes : Sizes} {key : String} {size : Nat} (h : Writable sizes)
    (hsize : size < Text.wordLimit) : Writable (sizes.insert key size) := by
  refine ⟨Keyed.pairwise_insert h.ascending, fun entry hentry => ?_⟩
  rcases Keyed.mem_insert hentry with rfl | hentry
  · exact hsize
  · exact h.below entry hentry

theorem Writable.above_entry {sizes others : Sizes} {entry : String × Nat}
    (h : Writable (sizes ++ entry :: others)) : ∀ other ∈ sizes, other.1 < entry.1 :=
  fun other hother =>
    (List.pairwise_append.1 h.ascending).2.2 other hother entry List.mem_cons_self

/-! ## Keys -/

theorem hexValue?_hexDigit : ∀ d < 16, hexValue? (Text.hexDigit d) = some d := by decide

/-- Four hexadecimal digits are read back. -/
theorem hexValue4?_digits {n : Nat} (h : n < 65536) :
    hexValue4? (Text.hexDigit (n / 4096)) (Text.hexDigit (n / 256 % 16))
      (Text.hexDigit (n / 16 % 16)) (Text.hexDigit (n % 16)) = some n := by
  unfold hexValue4?
  rw [hexValue?_hexDigit _ (by omega), hexValue?_hexDigit _ (by omega),
    hexValue?_hexDigit _ (by omega), hexValue?_hexDigit _ (by omega)]
  show some _ = some n
  congr 1
  omega

/-- A piece that is read as the character. -/
inductive Piece.Stands : Piece → Char → Prop
  | char (c : Char) : Stands (.char c) c
  | codeUnit {c : Char} (h : c.toNat < 32) : Stands (.codeUnit c.toNat) c

/-- A character is written as a backslash and a letter, in hexadecimal, or as it is. -/
theorem escape_cases (c : Char) :
    (∃ letter, letter ≠ 'u' ∧ unescape? letter = some c ∧ escape c = ['\\', letter]) ∨
    (c.toNat < 32 ∧ escape c = '\\' :: 'u' :: hex4 c.toNat) ∨
    (c ≠ '"' ∧ c ≠ '\\' ∧ ¬ c.toNat < 32 ∧ escape c = [c]) := by
  have hchar : ∀ d : Char, c.toNat = d.toNat → c = d := fun d h => Char.toNat_inj.1 h
  -- The seven characters with a letter of their own come first, then the control characters.
  unfold escape
  split
  next h => exact .inl ⟨'"', by decide, by rw [h]; rfl, rfl⟩
  split
  next h => exact .inl ⟨'\\', by decide, by rw [h]; rfl, rfl⟩
  split
  next h => exact .inl ⟨'n', by decide, h ▸ rfl, rfl⟩
  split
  next h => exact .inl ⟨'r', by decide, h ▸ rfl, rfl⟩
  split
  next h => exact .inl ⟨'t', by decide, h ▸ rfl, rfl⟩
  split
  next h => exact .inl ⟨'b', by decide, hchar '\x08' h ▸ rfl, rfl⟩
  split
  next h => exact .inl ⟨'f', by decide, hchar '\x0c' h ▸ rfl, rfl⟩
  split
  next h => exact .inr (.inl ⟨h, rfl⟩)
  next hquote hbackslash _ _ _ _ _ hlt => exact .inr (.inr ⟨hquote, hbackslash, hlt, rfl⟩)

/-- An escaped character is read as one piece that stands for it. -/
theorem pieces?_escape (c : Char) : ∃ piece : Piece, piece.Stands c ∧
    ∀ rest, pieces? (escape c ++ rest) = (pieces? rest).map fun p => (piece :: p.1, p.2) := by
  rcases escape_cases c with ⟨letter, hu, hletter, hescape⟩ | ⟨hlt, hescape⟩ |
    ⟨hquote, hbackslash, hlt, hescape⟩
  · refine ⟨_, .char c, fun rest => ?_⟩
    rw [hescape, List.cons_append, List.cons_append, List.nil_append, pieces?.eq_4, hletter]
    · cases pieces? rest <;> rfl
    · exact fun _ _ _ _ _ heq _ => hu heq
  · -- The four digits are read as one code unit, which is no surrogate.
    refine ⟨_, .codeUnit hlt, fun rest => ?_⟩
    rw [hescape, hex4]
    show pieces? ('\\' :: 'u' :: _ :: _ :: _ :: _ :: rest) = _
    rw [pieces?.eq_3, hexValue4?_digits (by omega)]
    cases pieces? rest <;> rfl
  · refine ⟨_, .char c, fun rest => ?_⟩
    rw [hescape, List.cons_append, List.nil_append, pieces?.eq_5 _ _ hquote
      (fun _ _ _ _ _ heq _ => hbackslash heq) (fun _ _ heq _ => hbackslash heq),
      if_neg (not_or.2 ⟨hbackslash, hlt⟩)]
    cases pieces? rest <;> rfl

/-- An escaped text is read up to the quote behind it. -/
theorem pieces?_escaped (cs rest : List Char) : ∃ pieces,
    List.Forall₂ Piece.Stands pieces cs ∧
      pieces? (cs.flatMap escape ++ '"' :: rest) = some (pieces, rest) := by
  induction cs with
  | nil => exact ⟨[], .nil, rfl⟩
  | cons c cs ih =>
    obtain ⟨piece, hpiece, hread⟩ := pieces?_escape c
    obtain ⟨pieces, hpieces, hrest⟩ := ih
    refine ⟨piece :: pieces, .cons hpiece hpieces, ?_⟩
    rw [List.flatMap_cons, List.append_assoc, hread, hrest]
    rfl

/-- A unit that is no surrogate makes a character of its own, whatever follows. -/
theorem characters?_codeUnit {n : Nat} (h : n < 0xd800) (rest : List Piece) :
    characters? (.codeUnit n :: rest) = (characters? rest).map (Char.ofNat n :: ·) := by
  have hhigh : isHighSurrogate n = false := by
    unfold isHighSurrogate
    rw [decide_eq_false (by omega), Bool.false_and]
  have hlow : isLowSurrogate n = false := by
    unfold isLowSurrogate
    rw [decide_eq_false (by omega), Bool.false_and]
  -- Only before another code unit does the reader ask for a pair of surrogates.
  match rest with
  | .codeUnit low :: rest =>
    rw [characters?, hhigh, hlow]
    rfl
  | [] | .char c :: rest =>
    rw [characters?.eq_4 _ _ (by simp), hhigh, hlow]
    rfl

/-- Pieces that stand for characters are read as these. -/
theorem characters?_of_stands {pieces : List Piece} {cs : List Char}
    (h : List.Forall₂ Piece.Stands pieces cs) : characters? pieces = some cs := by
  induction h with
  | nil => rfl
  | cons hpiece _ ih =>
    cases hpiece with
    | char c => rw [characters?, ih]; rfl
    | codeUnit hlt =>
      rw [characters?_codeUnit (by omega), ih, Char.ofNat_toNat]
      rfl

/-! ## Sizes and members -/

/-- No positive number is written with a zero in front, which the reader would not take. -/
theorem head?_decimalBefore_ne_zero {fuel n : Nat} {rest : List Char} (hfuel : n < fuel)
    (hpos : 0 < n) : (Text.decimalBefore fuel n rest).head? ≠ some '0' := by
  induction fuel generalizing n rest with
  | zero => omega
  | succ fuel ih =>
    rw [Text.decimalBefore]
    split
    next hlt =>
      -- The last digit to be written is the number itself, which is positive.
      have hdigit : Text.digit? (Text.digitChar n) = some n := by
        rw [Text.digit?_digitChar, Nat.mod_eq_of_lt hlt]
      intro hzero
      rw [Option.some.inj hzero, show Text.digit? '0' = some 0 from rfl] at hdigit
      exact absurd (Option.some.inj hdigit) (by omega)
    next => exact ih (by omega) (by omega)

theorem isDigit_of_mem_decimalDigits {n : Nat} : ∀ c ∈ Text.decimalDigits n, c.isDigit = true :=
  Text.isDigit_of_mem_decimalBefore fun _ h => absurd h List.not_mem_nil

/-- A size is read up to the first character that is no digit. -/
theorem size?_decimalDigits {n : Nat} (h : n < Text.wordLimit) {rest : List Char}
    (hrest : ∀ c ∈ rest.head?, c.isDigit = false) :
    size? (Text.decimalDigits n ++ rest) = some (n, rest) := by
  have hends : rest.takeWhile Char.isDigit = [] ∧ rest.dropWhile Char.isDigit = rest := by
    cases rest with
    | nil => exact ⟨rfl, rfl⟩
    | cons c rest =>
      have hc := hrest c rfl
      rw [List.takeWhile_cons, List.dropWhile_cons, hc]
      exact ⟨rfl, rfl⟩
  have htake : (Text.decimalDigits n ++ rest).takeWhile Char.isDigit = Text.decimalDigits n := by
    rw [List.takeWhile_append_of_pos isDigit_of_mem_decimalDigits, hends.1, List.append_nil]
  have hdrop : (Text.decimalDigits n ++ rest).dropWhile Char.isDigit = rest := by
    rw [List.dropWhile_append_of_pos isDigit_of_mem_decimalDigits, hends.2]
  have hnumber : Text.natural? Text.wordLimit (Text.decimalDigits n) = some n := by
    unfold Text.natural?
    split
    next hsign =>
      have hplus : '+' ∈ Text.decimalDigits n := hsign ▸ List.mem_cons_self
      exact absurd (isDigit_of_mem_decimalDigits _ hplus) (by decide)
    next =>
      dsimp only
      rw [Text.digits?_decimalDigits, Option.filter_some, decide_eq_true h]
      rfl
  unfold size?
  rw [htake, hdrop]
  dsimp only
  split
  next hzero =>
    -- only zero itself begins with a zero
    rcases Nat.eq_zero_or_pos n with rfl | hpos
    · cases hzero
    · exact absurd (by rw [Text.decimalDigits] at hzero; rw [hzero]; rfl)
        (head?_decimalBefore_ne_zero (Nat.lt_succ_self n) hpos)
  next =>
    rw [hnumber]
    rfl

/-- A member begins with a line break and two blanks. -/
theorem skip_member (entry : String × Nat) (rest : List Char) :
    skip (member entry ++ rest) = '"' :: (entry.1.toList.flatMap escape ++
      '"' :: ':' :: ' ' :: (Text.decimalDigits entry.2 ++ rest)) := by
  unfold member
  rw [List.append_assoc, List.append_assoc, List.append_assoc]
  rfl

theorem skip_decimalDigits (n : Nat) (rest : List Char) :
    skip (' ' :: (Text.decimalDigits n ++ rest)) = Text.decimalDigits n ++ rest := by
  cases hdigits : Text.decimalDigits n with
  | nil => exact absurd hdigits (Text.decimalBefore_ne_nil _ _ _ (Nat.succ_pos n))
  | cons c cs =>
    have hc : c.isDigit = true := isDigit_of_mem_decimalDigits c (hdigits ▸ List.mem_cons_self)
    have hblank : (c == ' ' || c == '\n' || c == '\r' || c == '\t') = false := by
      refine Bool.eq_false_iff.2 fun hblank => ?_
      simp only [Bool.or_eq_true, beq_iff_eq] at hblank
      rcases hblank with ((rfl | rfl) | rfl) | rfl <;> exact absurd hc (by decide)
    unfold skip
    rw [List.dropWhile_cons, if_pos (by decide), List.cons_append, List.dropWhile_cons, hblank]
    rfl

/-- A member is read back, with what stands behind it left over. -/
theorem member?_member {entry : String × Nat} (h : entry.2 < Text.wordLimit) {rest : List Char}
    (hrest : ∀ c ∈ rest.head?, c.isDigit = false) :
    member? (skip (member entry ++ rest)) = some (entry, rest) := by
  obtain ⟨key, n⟩ := entry
  obtain ⟨pieces, hpieces, hread⟩ := pieces?_escaped key.toList
    (':' :: ' ' :: (Text.decimalDigits n ++ rest))
  rw [skip_member, member?, hread]
  show (characters? pieces).bind _ = _
  rw [characters?_of_stands hpieces]
  show (size? (skip (' ' :: (Text.decimalDigits n ++ rest)))).bind _ = _
  rw [skip_decimalDigits, size?_decimalDigits h hrest]
  show some ((String.ofList key.toList, n), rest) = _
  rw [String.ofList_toList]

/-! ## Objects -/

theorem intercalate_members (entry : String × Nat) (sizes : Sizes) :
    [','].intercalate ((entry :: sizes).map member) =
      member entry ++ sizes.flatMap (',' :: member ·) := by
  induction sizes generalizing entry with
  | nil => simp [List.intercalate]
  | cons next sizes ih =>
    rw [List.flatMap_cons, List.cons_append, ← ih]
    simp [List.intercalate]

/-- A text has at least as many characters as members, so the fuel lasts. -/
theorem length_le_flatMap_member (sizes : Sizes) :
    sizes.length ≤ (sizes.flatMap (',' :: member ·)).length := by
  induction sizes with
  | nil => exact Nat.le_refl 0
  | cons entry sizes ih =>
    rw [List.flatMap_cons, List.length_append, List.length_cons, List.length_cons]
    omega

/-- A member with a key above those that are read so far goes to the end of them. -/
theorem members?_member {read : Sizes} {entry : String × Nat}
    (habove : ∀ other ∈ read, other.1 < entry.1) (hsize : entry.2 < Text.wordLimit)
    {rest : List Char} (hrest : ∀ c ∈ rest.head?, c.isDigit = false) (fuel : Nat) :
    members? read (fuel + 1) (member entry ++ rest) =
      match skip rest with
      | ',' :: rest => members? (read ++ [entry]) fuel rest
      | '\x7d' :: rest => some (read ++ [entry], rest)
      | _ => none := by
  rw [members?, member?_member hsize hrest, ← Keyed.insert_of_forall_lt habove]
  rfl

/-- All members are read back, one after the other. -/
theorem members?_written {read sizes : Sizes} {entry : String × Nat} {fuel : Nat}
    (hfuel : sizes.length < fuel) (hall : Writable (read ++ entry :: sizes)) (rest : List Char) :
    members? read fuel (member entry ++ (sizes.flatMap (',' :: member ·) ++ '\n' :: '\x7d' :: rest))
      = some (read ++ entry :: sizes, rest) := by
  induction sizes generalizing read entry fuel with
  | nil =>
    obtain ⟨fuel, rfl⟩ : ∃ n, fuel = n + 1 := ⟨fuel - 1, by omega⟩
    rw [List.flatMap_nil, List.nil_append,
      members?_member hall.above_entry (hall.below entry (by simp)) (by simp)]
    rfl
  | cons next sizes ih =>
    obtain ⟨fuel, rfl⟩ : ∃ n, fuel = n + 1 := ⟨fuel - 1, by omega⟩
    rw [List.flatMap_cons, List.cons_append, List.cons_append,
      members?_member hall.above_entry (hall.below entry (by simp)) (by simp)]
    -- the entry goes over to what has been read, and the next one takes its place
    have hall' : Writable (read ++ [entry] ++ next :: sizes) := by
      rwa [List.append_assoc, List.singleton_append]
    have hnext := @ih (read ++ [entry]) next fuel (Nat.lt_of_succ_lt_succ hfuel) hall'
    rw [List.append_assoc read, List.singleton_append] at hnext
    rw [List.append_assoc]
    exact hnext

theorem skip_skip (cs : List Char) : skip (skip cs) = skip cs := List.dropWhile_idempotent _ _

/-- Blanks before a member do not matter. -/
theorem members?_skip (read : Sizes) (fuel : Nat) (cs : List Char) :
    members? read fuel (skip cs) = members? read fuel cs := by
  cases fuel with
  | zero => rfl
  | succ fuel => rw [members?, members?, skip_skip]

/-- An object with something between its braces is read member by member. -/
theorem read?_brace {text tail : List Char} (h : skip text = '"' :: tail) :
    read? (String.ofList ('\x7b' :: text)) =
      (members? [] (skip text).length (skip text)).bind fun p =>
        if skip p.2 = [] then some p.1 else none := by
  have hblank : Text.allBlank (String.ofList ('\x7b' :: text)) = false := by
    unfold Text.allBlank
    rw [String.toList_ofList]
    rfl
  have hbrace : skip ('\x7b' :: text) = '\x7b' :: text := rfl
  unfold read?
  rw [hblank, if_neg Bool.false_ne_true, String.toList_ofList, hbrace]
  split
  next rest heq =>
    obtain rfl := (List.cons.inj heq).2
    rw [h]
    rfl
  next hother => exact absurd rfl (hother text)

/-- What is written is read back. -/
theorem read?_write {sizes : Sizes} (h : Writable sizes) : read? (write sizes) = some sizes := by
  cases sizes with
  | nil => rfl
  | cons entry sizes =>
    generalize htext : member entry ++ (sizes.flatMap (',' :: member ·) ++ ['\n', '\x7d']) = text
    have hwritten : write (entry :: sizes) = String.ofList ('\x7b' :: text) := by
      unfold write
      rw [intercalate_members, List.append_assoc, List.append_assoc]
      exact congrArg (fun text => String.ofList ('\x7b' :: text)) htext
    have hskip := skip_member entry (sizes.flatMap (',' :: member ·) ++ ['\n', '\x7d'])
    rw [htext] at hskip
    -- each further member has a comma, so that there are fewer of them than characters
    have hfuel : sizes.length < (skip text).length := by
      have hlength := length_le_flatMap_member sizes
      rw [hskip]
      simp only [List.length_cons, List.length_append]
      omega
    have hmembers := @members?_written [] sizes entry _ hfuel h []
    rw [htext, ← members?_skip] at hmembers
    rw [hwritten, read?_brace hskip, hmembers]
    rfl

/-! ## What is read can be written -/

theorem lt_of_size? {cs rest : List Char} {n : Nat} (h : size? cs = some (n, rest)) :
    n < Text.wordLimit := by
  unfold size? at h
  dsimp only at h
  split at h
  next => cases h
  next =>
    obtain ⟨m, hm, heq⟩ := Option.bind_eq_some_iff.1 h
    obtain ⟨rfl, -⟩ := Prod.mk.inj (Option.some.inj heq)
    exact of_decide_eq_true (Option.filter_eq_some_iff.1 hm).2

theorem lt_of_member? {cs rest : List Char} {entry : String × Nat}
    (h : member? cs = some (entry, rest)) : entry.2 < Text.wordLimit := by
  unfold member? at h
  split at h
  next =>
    obtain ⟨⟨pieces, behind⟩, -, h⟩ := Option.bind_eq_some_iff.1 h
    obtain ⟨key, -, h⟩ := Option.bind_eq_some_iff.1 h
    split at h
    next =>
      obtain ⟨⟨n, behind⟩, hsize, heq⟩ := Option.bind_eq_some_iff.1 h
      obtain ⟨rfl, -⟩ := Prod.mk.inj (Option.some.inj heq)
      exact lt_of_size? hsize
    next => cases h
  next => cases h

/-- Whatever is read can be written. -/
theorem Writable.of_members? {read sizes : Sizes} {fuel : Nat} {cs rest : List Char}
    (hread : Writable read) (h : members? read fuel cs = some (sizes, rest)) : Writable sizes := by
  induction fuel generalizing read cs with
  | zero => cases h
  | succ fuel ih =>
    rw [members?] at h
    obtain ⟨⟨entry, behind⟩, hmember, h⟩ := Option.bind_eq_some_iff.1 h
    -- Writable tables are kept by each member that is read, behind a comma or at the end.
    have hinsert : Writable (read.insert entry.1 entry.2) := hread.insert (lt_of_member? hmember)
    dsimp only at h
    split at h
    next => exact ih hinsert h
    next =>
      obtain ⟨rfl, -⟩ := Prod.mk.inj (Option.some.inj h)
      exact hinsert
    next => cases h

theorem writable_of_read? {text : String} {sizes : Sizes} (h : read? text = some sizes) :
    Writable sizes := by
  unfold read? at h
  split at h
  next => exact Option.some.inj h ▸ Writable.nil
  next =>
    split at h
    next =>
      split at h
      next =>
        split at h
        next => exact Option.some.inj h ▸ Writable.nil
        next => cases h
      next =>
        obtain ⟨⟨read, behind⟩, hmembers, h⟩ := Option.bind_eq_some_iff.1 h
        dsimp only at h
        split at h
        next => exact Option.some.inj h ▸ Writable.nil.of_members? hmembers
        next => cases h
    next => cases h

end CacheText

end RamOverlay
