import Mathlib.Data.List.Basic
import RamOverlay.Flow.Formation

/-!
# Cutting a unit into blocks

What `formBlocks` makes of the walked entries.

* **`Formed`**: the scan as a relation, one rule for each thing that it can do with an entry.
* **`addresses_of_formed`**: the blocks hold the walked entries, in order and each once.
* **`CutOut`**: a block is a run of consecutive entries, and it has no mark inside but around the
  delay slot that ends it.
-/

namespace RamOverlay

namespace Block

/-- The addresses of the entries of a block. -/
def addresses (block : Block) : List Nat := block.instructions.map (·.address)

theorem instructions_ne_nil (block : Block) : block.instructions ≠ [] :=
  List.cons_ne_nil block.first block.rest

theorem length_pos (block : Block) : 0 < block.instructions.length :=
  List.length_pos_of_ne_nil block.instructions_ne_nil

@[simp] theorem instructions_push (block : Block) (insn : Instruction) :
    (block.push insn).instructions = block.instructions ++ [insn] := by
  simp [instructions, push]

@[simp] theorem address_push (block : Block) (insn : Instruction) :
    (block.push insn).address = block.address := rfl

end Block

namespace Discovery

/-- `blocks` are formed of the entries from `a` on, after the unfinished block `current`. -/
inductive Formed (walk : Walk) :
    Nat → Option Block → List Instruction → List Block → Prop where
  | nil {a : Nat} {current : Option Block} : Formed walk a current [] current.toList
  | skip {a : Nat} {current : Option Block} {insn : Instruction} {rest : List Instruction}
      {blocks : List Block} (hwalked : walk.walked.contains a = false)
      (hrest : Formed walk (a + 1) none rest blocks) :
      Formed walk a current (insn :: rest) (current.toList ++ blocks)
  | flush {a : Nat} {block : Block} {insn : Instruction} {rest : List Instruction}
      {blocks : List Block} (hbefore : walk.cutBefore.contains a = true)
      (hrest : Formed walk a none (insn :: rest) blocks) :
      Formed walk a (some block) (insn :: rest) (block :: blocks)
  | last {a : Nat} {current : Option Block} {insn : Instruction}
      (hwalked : walk.walked.contains a = true)
      (hkept : current = none ∨ walk.cutBefore.contains a = false) :
      Formed walk a current [insn] [extend current insn]
  | slot {a : Nat} {current : Option Block} {insn next : Instruction} {rest : List Instruction}
      {blocks : List Block} (hwalked : walk.walked.contains a = true)
      (hkept : current = none ∨ walk.cutBefore.contains a = false)
      (hslot : insn.isBranch = true ∧ insn.delaySlot = true)
      (hrest : Formed walk (a + 2) none rest blocks) :
      Formed walk a current (insn :: next :: rest) ((extend current insn).push next :: blocks)
  | cut {a : Nat} {current : Option Block} {insn next : Instruction} {rest : List Instruction}
      {blocks : List Block} (hwalked : walk.walked.contains a = true)
      (hkept : current = none ∨ walk.cutBefore.contains a = false)
      (hslot : ¬ (insn.isBranch = true ∧ insn.delaySlot = true))
      (hrest : Formed walk (a + 1) none (next :: rest) blocks) :
      Formed walk a current (insn :: next :: rest) (extend current insn :: blocks)
  | run {a : Nat} {current : Option Block} {insn next : Instruction} {rest : List Instruction}
      {blocks : List Block} (hwalked : walk.walked.contains a = true)
      (hkept : current = none ∨ walk.cutBefore.contains a = false)
      (hslot : ¬ (insn.isBranch = true ∧ insn.delaySlot = true))
      (hafter : walk.cutAfter.contains a = false)
      (hrest : Formed walk (a + 1) (some (extend current insn)) (next :: rest) blocks) :
      Formed walk a current (insn :: next :: rest) blocks

/-- A walked entry joins the unfinished block if that may go on. -/
theorem formFrom_of_kept {walk : Walk} {a : Nat} {current : Option Block} {insn : Instruction}
    {rest : List Instruction} (hwalked : walk.walked.contains a = true)
    (hkept : current = none ∨ walk.cutBefore.contains a = false) :
    formFrom walk a current (insn :: rest) = match rest with
      | next :: rest =>
        if insn.isBranch && insn.delaySlot then
          (extend current insn).push next :: formFrom walk (a + 2) none rest
        else if walk.cutAfter.contains a then
          extend current insn :: formFrom walk (a + 1) none (next :: rest)
        else formFrom walk (a + 1) (some (extend current insn)) (next :: rest)
      | [] => [extend current insn] := by
  -- nothing is cut before the entry, so the unfinished block goes on
  have hcurrent : (if walk.cutBefore.contains a = true then none else current) = current := by
    rcases hkept with rfl | hbefore
    · split <;> rfl
    · rw [if_neg (by simp [hbefore])]
  have hended : (if walk.cutBefore.contains a = true then current else none) = none := by
    rcases hkept with rfl | hbefore
    · split <;> rfl
    · rw [if_neg (by simp [hbefore])]
  rw [formFrom, if_pos hwalked]
  dsimp only
  rw [hcurrent, hended, Option.toList_none]
  exact List.nil_append _

/-- A mark before a walked entry ends the unfinished block. -/
theorem formFrom_of_cutBefore {walk : Walk} {a : Nat} {block : Block} {insn : Instruction}
    {rest : List Instruction} (hwalked : walk.walked.contains a = true)
    (hbefore : walk.cutBefore.contains a = true) :
    formFrom walk a (some block) (insn :: rest) =
      block :: formFrom walk a none (insn :: rest) := by
  rw [formFrom, formFrom, if_pos hwalked, if_pos hwalked]
  simp [hbefore]

/-- The scan follows the rules; `n` bounds the entries that are left. -/
theorem formed_of_length_le (walk : Walk) {n a : Nat} {current : Option Block}
    {entries : List Instruction} (hn : entries.length ≤ n) :
    Formed walk a current entries (formFrom walk a current entries) := by
  induction n generalizing a current entries with
  | zero =>
    rw [List.length_eq_zero_iff.mp (Nat.le_zero.mp hn)]
    exact .nil
  | succ n ih =>
    cases entries with
    | nil => exact .nil
    | cons insn rest =>
      have hlength : rest.length ≤ n := Nat.le_of_succ_le_succ hn
      cases hwalked : walk.walked.contains a with
      | false =>
        rw [formFrom, if_neg (by simp [hwalked])]
        exact .skip hwalked (ih hlength)
      | true =>
        -- first without an unfinished block that ends here
        have hkept : ∀ current : Option Block,
            (current = none ∨ walk.cutBefore.contains a = false) →
            Formed walk a current (insn :: rest) (formFrom walk a current (insn :: rest)) := by
          intro current hkept
          rw [formFrom_of_kept hwalked hkept]
          cases rest with
          | nil => exact .last hwalked hkept
          | cons next rest =>
            dsimp only
            split
            next hslot =>
              exact .slot hwalked hkept (Bool.and_eq_true_iff.mp hslot)
                (ih (Nat.le_of_succ_le hlength))
            next hslot =>
              have hslot := fun h => hslot (Bool.and_eq_true_iff.mpr h)
              split
              next => exact .cut hwalked hkept hslot (ih hlength)
              next hafter =>
                exact .run hwalked hkept hslot (Bool.eq_false_iff.mpr hafter) (ih hlength)
        cases current with
        | none => exact hkept none (.inl rfl)
        | some block =>
          cases hbefore : walk.cutBefore.contains a with
          | false => exact hkept (some block) (.inr hbefore)
          | true =>
            rw [formFrom_of_cutBefore hwalked hbefore]
            exact .flush hbefore (hkept none (.inl rfl))

theorem formed_formFrom (walk : Walk) (a : Nat) (current : Option Block)
    (entries : List Instruction) :
    Formed walk a current entries (formFrom walk a current entries) :=
  formed_of_length_le walk (Nat.le_refl _)

/-! ## All entries once -/

/-- `slot` tells which entries are taken into a block as delay slots of the entries before. -/
structure Slots (entries : List Instruction) (walk : Walk) (slot : Nat → Prop) : Prop where
  zero : ¬ slot 0
  succ : ∀ a, slot (a + 1) ↔ a + 1 < entries.length ∧ walk.walked.contains a = true ∧ ¬ slot a ∧
    ∃ insn, entries[a]? = some insn ∧ insn.isBranch = true ∧ insn.delaySlot = true
  walked : ∀ a, slot a → walk.walked.contains a = true

/-- The entries from a place on begin with the one at that place. -/
theorem getElem?_of_drop_eq_cons {entries rest : List Instruction} {insn : Instruction} {a : Nat}
    (h : entries.drop a = insn :: rest) :
    entries[a]? = some insn ∧ entries.drop (a + 1) = rest := by
  constructor
  · rw [← List.head?_drop, h, List.head?_cons]
  · rw [← List.tail_drop, h, List.tail_cons]

section Formed

variable {entries rest : List Instruction} {walk : Walk} {slot : Nat → Prop} {a : Nat}
  {current : Option Block} {insn : Instruction} {blocks : List Block}

theorem addresses_extend (current : Option Block) (insn : Instruction) :
    (extend current insn).addresses = current.toList.flatMap Block.addresses ++ [insn.address] := by
  cases current with
  | none => simp [extend, Block.addresses, Block.instructions]
  | some block => simp [extend, Block.addresses]

/-- The entry after a walked one is its delay slot only if the scan takes it as such. -/
theorem Slots.not_succ (h : Slots entries walk slot) (hinsn : entries[a]? = some insn)
    (hslot : ¬ (insn.isBranch = true ∧ insn.delaySlot = true)) : ¬ slot (a + 1) := by
  rw [h.succ]
  rintro ⟨_, _, _, other, hother, hbranch⟩
  obtain rfl : insn = other := Option.some.inj (hinsn.symm.trans hother)
  exact hslot hbranch

/-- The delay slot of a walked branch is taken with it, and the entry behind it is none. -/
theorem Slots.succ_of_branch {next : Instruction} (h : Slots entries walk slot)
    (hwalked : walk.walked.contains a = true) (hslot : ¬ slot a) (hinsn : entries[a]? = some insn)
    (hnext : entries[a + 1]? = some next)
    (hbranch : insn.isBranch = true ∧ insn.delaySlot = true) : slot (a + 1) ∧ ¬ slot (a + 2) := by
  have hlt : a + 1 < entries.length := (List.getElem?_eq_some_iff.mp hnext).1
  have hnextslot : slot (a + 1) := (h.succ a).2 ⟨hlt, hwalked, hslot, insn, hinsn, hbranch⟩
  exact ⟨hnextslot, fun hslot' => ((h.succ (a + 1)).1 hslot').2.2.1 hnextslot⟩

theorem Slots.not_succ_of_not_walked (h : Slots entries walk slot)
    (hwalked : walk.walked.contains a = false) : ¬ slot (a + 1) := by
  rw [h.succ, hwalked]
  exact fun h => Bool.false_ne_true h.2.1

/-- The blocks hold the walked entries, in order and each once. -/
theorem addresses_of_formed (hslots : Slots entries walk slot)
    (haddress : ∀ a (insn : Instruction), entries[a]? = some insn → insn.address = a)
    (h : Formed walk a current rest blocks) (hrest : entries.drop a = rest) (hslot : ¬ slot a) :
    blocks.flatMap Block.addresses = current.toList.flatMap Block.addresses ++
      (List.range' a rest.length).filter walk.walked.contains := by
  induction h with
  | nil => simp
  | @skip a current insn rest blocks hwalked _ ih =>
    obtain ⟨_, hdrop⟩ := getElem?_of_drop_eq_cons hrest
    have hnot := hslots.not_succ_of_not_walked hwalked
    rw [List.flatMap_append, ih hdrop hnot, List.length_cons, List.range'_succ,
      List.filter_cons_of_neg (by simp [hwalked])]
    simp
  | flush _ _ ih =>
    rw [List.flatMap_cons, ih hrest hslot]
    simp
  | @last a current insn hwalked _ =>
    obtain ⟨hinsn, _⟩ := getElem?_of_drop_eq_cons hrest
    simp [addresses_extend, haddress a insn hinsn, hwalked]
  -- two entries go at once here, the branch and its slot, both walked
  | @slot a current insn next rest blocks hwalked _ hbranch _ ih =>
    obtain ⟨hinsn, hdrop⟩ := getElem?_of_drop_eq_cons hrest
    obtain ⟨hnext, hdrop'⟩ := getElem?_of_drop_eq_cons hdrop
    obtain ⟨hnextslot, hnot⟩ := hslots.succ_of_branch hwalked hslot hinsn hnext hbranch
    have hpush : ((extend current insn).push next).addresses =
        (extend current insn).addresses ++ [next.address] := by
      simp [Block.addresses]
    rw [List.flatMap_cons, ih hdrop' hnot, hpush, addresses_extend, haddress a insn hinsn,
      haddress (a + 1) next hnext]
    simp [List.range'_succ, hwalked, hslots.walked (a + 1) hnextslot]
  | @cut a current insn next rest blocks hwalked _ hbranch _ ih =>
    obtain ⟨hinsn, hdrop⟩ := getElem?_of_drop_eq_cons hrest
    rw [List.flatMap_cons, ih hdrop (hslots.not_succ hinsn hbranch), addresses_extend,
      haddress a insn hinsn]
    simp [List.range'_succ, hwalked]
  | @run a current insn next rest blocks hwalked _ hbranch _ _ ih =>
    obtain ⟨hinsn, hdrop⟩ := getElem?_of_drop_eq_cons hrest
    rw [ih hdrop (hslots.not_succ hinsn hbranch), Option.toList_some, List.flatMap_singleton,
      addresses_extend, haddress a insn hinsn]
    simp [List.range'_succ, hwalked]

end Formed

/-! ## Consecutive entries -/

/-- A block of consecutive walked entries that may go on: without delay slots, and without a mark
between two entries. -/
structure Straight (entries : List Instruction) (walk : Walk) (slot : Nat → Prop) (block : Block) :
    Prop where
  run : block.instructions <+: entries.drop block.address
  walked : ∀ i < block.instructions.length, walk.walked.contains (block.address + i) = true
  plain : ∀ i < block.instructions.length, ¬ slot (block.address + i)
  before : ∀ i, 0 < i → i < block.instructions.length →
    walk.cutBefore.contains (block.address + i) = false

/-- A finished block: its entries are consecutive and walked, and only the last one may be a delay
slot or stand behind a mark. -/
structure CutOut (entries : List Instruction) (walk : Walk) (slot : Nat → Prop) (block : Block) :
    Prop where
  run : block.instructions <+: entries.drop block.address
  walked : ∀ i < block.instructions.length, walk.walked.contains (block.address + i) = true
  last : ∀ i < block.instructions.length, slot (block.address + i) →
    0 < i ∧ i + 1 = block.instructions.length
  before : ∀ i, 0 < i → i < block.instructions.length →
    walk.cutBefore.contains (block.address + i) = true → slot (block.address + i)
  after : ∀ i, i + 1 < block.instructions.length →
    walk.cutAfter.contains (block.address + i) = true → slot (block.address + (i + 1))

section Straight

variable {entries rest : List Instruction} {walk : Walk} {slot : Nat → Prop} {a : Nat}
  {current : Option Block} {insn next : Instruction} {blocks : List Block} {block : Block}

/-- The block that the scan is in: it goes up to `a`, and no block has to end before. -/
structure Current (entries : List Instruction) (walk : Walk) (slot : Nat → Prop) (a : Nat)
    (block : Block) : Prop extends Straight entries walk slot block where
  stop : block.address + block.instructions.length = a
  uncut : ∀ i < block.instructions.length, walk.cutAfter.contains (block.address + i) = false

theorem run_singleton (hinsn : entries[insn.address]? = some insn) :
    [insn] <+: entries.drop insn.address := by
  obtain ⟨hlt, heq⟩ := List.getElem?_eq_some_iff.mp hinsn
  exact ⟨entries.drop (insn.address + 1), by rw [List.drop_eq_getElem_cons hlt, heq]; rfl⟩

/-- A run of entries is longer by the entry behind it. -/
theorem run_concat (hrun : block.instructions <+: entries.drop block.address)
    (hinsn : entries[block.address + block.instructions.length]? = some insn) :
    block.instructions ++ [insn] <+: entries.drop block.address := by
  obtain ⟨more, hmore⟩ := hrun
  rw [← List.getElem?_drop, ← hmore, List.getElem?_append_right (Nat.le_refl _),
    Nat.sub_self] at hinsn
  cases more with
  | nil => simp at hinsn
  | cons first more =>
    obtain rfl : first = insn := by simpa using hinsn
    exact ⟨more, by rw [← hmore]; simp⟩

/-- A block stays straight when the next entry joins it, if nothing is cut between the two. -/
theorem straight_extend (hcurrent : ∀ block ∈ current, Current entries walk slot a block)
    (haddress : insn.address = a) (hinsn : entries[a]? = some insn)
    (hwalked : walk.walked.contains a = true) (hslot : ¬ slot a)
    (hkept : current = none ∨ walk.cutBefore.contains a = false) :
    Straight entries walk slot (extend current insn) ∧
      (extend current insn).address + (extend current insn).instructions.length = a + 1 ∧
      ∀ i, i + 1 < (extend current insn).instructions.length →
        walk.cutAfter.contains ((extend current insn).address + i) = false := by
  cases current with
  | none =>
    -- the block has one entry
    subst haddress
    have hzero : ∀ i, i < (extend none insn).instructions.length → i = 0 :=
      fun i hi => Nat.lt_one_iff.mp hi
    refine ⟨⟨?_, fun i hi => ?_, fun i hi => ?_, fun i hpos hi => ?_⟩, rfl, fun i hi => ?_⟩
    · exact run_singleton hinsn
    · rw [hzero i hi]
      exact hwalked
    · rw [hzero i hi]
      exact hslot
    · exact absurd (hzero i hi) (Nat.ne_of_gt hpos)
    · exact absurd (hzero (i + 1) hi) (Nat.succ_ne_zero i)
  | some block =>
    obtain ⟨⟨hrun, hwalked', hplain, hbefore⟩, hstop, huncut⟩ := hcurrent block rfl
    -- the new entry is at `a`, right behind the ones before
    have hcut : walk.cutBefore.contains a = false := hkept.resolve_left (by simp)
    have hlength : (extend (some block) insn).instructions.length =
        block.instructions.length + 1 := by simp [extend]
    have hcases : ∀ i, i < (extend (some block) insn).instructions.length →
        i < block.instructions.length ∨ block.address + i = a := by
      intro i hi
      omega
    refine ⟨⟨?_, fun i hi => ?_, fun i hi => ?_, fun i hpos hi => ?_⟩, ?_, fun i hi => ?_⟩
    · rw [← hstop] at hinsn
      simpa [extend] using run_concat hrun hinsn
    · rcases hcases i hi with hi | hi
      · exact hwalked' i hi
      · exact hi ▸ hwalked
    · rcases hcases i hi with hi | hi
      · exact hplain i hi
      · exact hi ▸ hslot
    · rcases hcases i hi with hi | hi
      · exact hbefore i hpos hi
      · exact hi ▸ hcut
    · rw [hlength, ← hstop]
      rfl
    · exact huncut i (by omega)

/-- A straight block with no cut behind any entry but its last is one that cutting gives. -/
theorem Straight.cutOut (h : Straight entries walk slot block)
    (huncut : ∀ i, i + 1 < block.instructions.length →
      walk.cutAfter.contains (block.address + i) = false) : CutOut entries walk slot block where
  run := h.run
  walked := h.walked
  last i hi hslot := absurd hslot (h.plain i hi)
  before i hpos hi hcut := by simp [h.before i hpos hi] at hcut
  after i hi hcut := by simp [huncut i hi] at hcut

/-- The delay slot ends the block of its branch. -/
theorem Straight.cutOut_push (h : Straight entries walk slot block)
    (huncut : ∀ i, i + 1 < block.instructions.length →
      walk.cutAfter.contains (block.address + i) = false)
    (hstop : block.address + block.instructions.length = a) (hnext : entries[a]? = some next)
    (hwalked : walk.walked.contains a = true) (hslot : slot a) :
    CutOut entries walk slot (block.push next) := by
  subst hstop
  have hpos := block.length_pos
  have hcases : ∀ i, i < (block.push next).instructions.length →
      i < block.instructions.length ∨ i = block.instructions.length := by
    intro i hi
    rw [Block.instructions_push, List.length_append, List.length_singleton] at hi
    omega
  -- each of the rest is asked of the entries from before, and of the slot
  refine ⟨?_, fun i hi => ?_, fun i hi hislot => ?_, fun i hipos hi hcut => ?_,
    fun i hi hcut => ?_⟩
  · rw [Block.instructions_push]
    exact run_concat h.run hnext
  · rcases hcases i hi with hi | rfl
    · exact h.walked i hi
    · exact hwalked
  · rcases hcases i hi with hi | rfl
    · exact absurd hislot (h.plain i hi)
    · exact ⟨hpos, by simp⟩
  · rcases hcases i hi with hi | rfl
    · exact absurd hcut (by simp [h.before i hipos hi])
    · exact hslot
  · rcases hcases (i + 1) hi with hi | hi
    · exact absurd hcut (by simp [huncut i hi])
    · rw [hi]
      exact hslot

/-- Every block that the scan forms is cut out of the entries as the marks say. -/
theorem cutOut_of_formed (hslots : Slots entries walk slot)
    (haddress : ∀ a (insn : Instruction), entries[a]? = some insn → insn.address = a)
    (h : Formed walk a current rest blocks) (hrest : entries.drop a = rest) (hslot : ¬ slot a)
    (hcurrent : ∀ block ∈ current, Current entries walk slot a block) :
    ∀ block ∈ blocks, CutOut entries walk slot block := by
  -- the unfinished block is finished as it is, or by the entry that the scan is at
  have hfinish : ∀ {a block}, Current entries walk slot a block → CutOut entries walk slot block :=
    fun h => h.cutOut fun i hi => h.uncut i (Nat.lt_of_succ_lt hi)
  have hnone : ∀ {a}, ∀ block ∈ (none : Option Block), Current entries walk slot a block := by simp
  induction h with
  | nil => exact fun block hblock => hfinish (hcurrent block (Option.mem_toList.mp hblock))
  | @skip a current insn rest blocks hwalked _ ih =>
    obtain ⟨_, hdrop⟩ := getElem?_of_drop_eq_cons hrest
    intro block hblock
    rcases List.mem_append.mp hblock with hblock | hblock
    · exact hfinish (hcurrent block (Option.mem_toList.mp hblock))
    · exact ih hdrop (hslots.not_succ_of_not_walked hwalked) hnone block hblock
  | flush _ _ ih =>
    intro block hblock
    rcases List.mem_cons.mp hblock with rfl | hblock
    · exact hfinish (hcurrent _ rfl)
    · exact ih hrest hslot hnone block hblock
  | @last a current insn hwalked hkept =>
    obtain ⟨hinsn, _⟩ := getElem?_of_drop_eq_cons hrest
    obtain ⟨hstraight, _, huncut⟩ := straight_extend hcurrent (haddress a insn hinsn) hinsn hwalked
      hslot hkept
    intro block hblock
    rw [List.mem_singleton.mp hblock]
    exact hstraight.cutOut huncut
  | @slot a current insn next rest blocks hwalked hkept hbranch _ ih =>
    obtain ⟨hinsn, hdrop⟩ := getElem?_of_drop_eq_cons hrest
    obtain ⟨hnext, hdrop'⟩ := getElem?_of_drop_eq_cons hdrop
    obtain ⟨hstraight, hstop, huncut⟩ := straight_extend hcurrent (haddress a insn hinsn) hinsn
      hwalked hslot hkept
    obtain ⟨hnextslot, hnot⟩ := hslots.succ_of_branch hwalked hslot hinsn hnext hbranch
    intro block hblock
    rcases List.mem_cons.mp hblock with rfl | hblock
    · exact hstraight.cutOut_push huncut hstop hnext (hslots.walked _ hnextslot) hnextslot
    · exact ih hdrop' hnot hnone block hblock
  | @cut a current insn next rest blocks hwalked hkept hbranch _ ih =>
    obtain ⟨hinsn, hdrop⟩ := getElem?_of_drop_eq_cons hrest
    obtain ⟨hstraight, _, huncut⟩ := straight_extend hcurrent (haddress a insn hinsn) hinsn hwalked
      hslot hkept
    intro block hblock
    rcases List.mem_cons.mp hblock with rfl | hblock
    · exact hstraight.cutOut huncut
    · exact ih hdrop (hslots.not_succ hinsn hbranch) hnone block hblock
  | @run a current insn next rest blocks hwalked hkept hbranch hafter _ ih =>
    obtain ⟨hinsn, hdrop⟩ := getElem?_of_drop_eq_cons hrest
    obtain ⟨hstraight, hstop, huncut⟩ := straight_extend hcurrent (haddress a insn hinsn) hinsn
      hwalked hslot hkept
    refine ih hdrop (hslots.not_succ hinsn hbranch) fun block hblock => ?_
    obtain rfl : extend current insn = block := Option.some.inj hblock
    refine ⟨hstraight, hstop, fun i hi => ?_⟩
    by_cases hlast : i + 1 < (extend current insn).instructions.length
    · exact huncut i hlast
    · rw [show (extend current insn).address + i = a by omega]
      exact hafter

end Straight

end Discovery

end RamOverlay
