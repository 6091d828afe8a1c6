import RamOverlay.Proofs.Size.WrittenSizes
import Mathlib.Logic.Function.Basic

/-!
# Caches that share a file

Any number of caches over one file, each used by steps of its own: loading, putting, looking up and
writing back. Steps come in any order; that of writing back is one step, since it is done under a
lock. `SharedFile.run` is the state after some steps, and what is said of all lists of steps is said
of all interleavings.

* **`SizeCache.get?_absorb`**: what a cache holds when it has absorbed the sizes of the file.
* **`SharedFile.step_flush_of_dirty`**, `step_flush_of_clean`, `step_flush_of_not_parses`: the three
  ends of writing back.
* **`SharedFile.Sound`**: the file parses, and a clean cache holds no key that the file lacks. A
  step keeps it, and loses no key of the file (`Sound.step`, `Sound.keys_step`).
* **`SharedFile.run_loses_nothing`**: no interleaving loses an entry.
-/

namespace RamOverlay

namespace SizeCache

/-! ## Files -/

/-- The file is missing, or its text can be read. -/
def Parses (file? : Option String) : Prop := ∀ text ∈ file?, (CacheText.read? text).isSome

instance (file? : Option String) : Decidable (Parses file?) := by
  unfold Parses
  infer_instance

/-- The sizes in a file; none if it cannot be read. -/
def sizesIn (file? : Option String) : CacheText.Sizes := (entriesOf file?).toOption.getD []

variable {file? : Option String} {cache : SizeCache}

/-- A file that parses is loaded. -/
theorem entriesOf_of_parses (h : Parses file?) : entriesOf file? = .ok (sizesIn file?) := by
  unfold sizesIn entriesOf
  cases file? with
  | none => rfl
  | some text =>
    obtain ⟨sizes, hsizes⟩ := Option.isSome_iff_exists.1 (h text rfl)
    dsimp only
    rw [hsizes]
    rfl

/-- A file that does not parse is reported, and not taken as empty. -/
theorem entriesOf_of_not_parses (h : ¬ Parses file?) : entriesOf file? = .error .corrupt := by
  unfold entriesOf
  cases file? with
  | none => exact absurd (fun _ h => nomatch h) h
  | some text =>
    dsimp only
    cases hsizes : CacheText.read? text with
    | none => rfl
    | some sizes =>
      refine absurd (fun other hother => ?_) h
      rw [← Option.some.inj hother, hsizes]
      rfl

/-- What is read from a file can be written to one. -/
theorem writable_sizesIn (file? : Option String) : CacheText.Writable (sizesIn file?) := by
  unfold sizesIn entriesOf
  cases file? with
  | none => exact CacheText.Writable.nil
  | some text =>
    dsimp only
    cases hsizes : CacheText.read? text with
    | none => exact CacheText.Writable.nil
    | some sizes => exact CacheText.writable_of_read? hsizes

theorem parses_write {sizes : CacheText.Sizes} (h : CacheText.Writable sizes) :
    Parses (some (CacheText.write sizes)) := by
  intro text htext
  rw [← Option.some.inj htext, CacheText.read?_write h]
  rfl

/-- What is written is read back. -/
theorem sizesIn_write {sizes : CacheText.Sizes} (h : CacheText.Writable sizes) :
    sizesIn (some (CacheText.write sizes)) = sizes := by
  unfold sizesIn entriesOf
  dsimp only
  rw [CacheText.read?_write h]
  rfl

/-! ## Loading, putting and writing back -/

theorem load_of_parses (h : Parses file?) : load file? = .ok { entries := sizesIn file? } := by
  rw [load, entriesOf_of_parses h]
  rfl

theorem load_of_not_parses (h : ¬ Parses file?) : load file? = .error .corrupt := by
  rw [load, entriesOf_of_not_parses h]
  rfl

theorem writable_put {insn : String} {size : Nat} (h : CacheText.Writable cache.entries)
    (hsize : size < Text.wordLimit) : CacheText.Writable (cache.put insn size).entries := by
  unfold put
  split
  · exact h
  · exact h.insert hsize

/-- A cache that is clean after a size was put held that size before. -/
theorem put_of_clean {insn : String} {size : Nat} (h : (cache.put insn size).dirty = false) :
    cache.put insn size = cache := by
  unfold put at h ⊢
  split
  next => rfl
  next hnew =>
    rw [if_neg hnew] at h
    cases h

/-- An absorbed size counts only where the cache has none. -/
theorem get?_absorb (cache : SizeCache) (sizes : CacheText.Sizes) (insn : String) :
    (cache.absorb sizes).get? insn = (cache.get? insn).or (sizes.get? insn) := by
  -- the induction is on the sizes, over what the cache holds when their turn comes
  unfold absorb get?
  dsimp only
  generalize cache.entries = entries
  induction sizes generalizing entries with
  | nil => rw [List.foldl_nil, Keyed.get?_nil, Option.or_none]
  | cons entry sizes ih =>
    obtain ⟨key, size⟩ := entry
    rw [List.foldl_cons, ih, Keyed.get?]
    dsimp only
    split
    next hsome =>
      split
      next hkey =>
        obtain ⟨own, hown⟩ := Option.isSome_iff_exists.1 hsome
        rw [← hkey, hown]
        rfl
      next => rfl
    next hnone =>
      rw [Keyed.get?_insert]
      split
      next hkey => rw [← hkey, Option.not_isSome_iff_eq_none.1 hnone]; rfl
      next => rfl

theorem writable_absorb {sizes : CacheText.Sizes} (h : CacheText.Writable cache.entries)
    (hsizes : CacheText.Writable sizes) : CacheText.Writable (cache.absorb sizes).entries := by
  have hbelow := hsizes.below
  unfold absorb
  dsimp only
  generalize cache.entries = entries at h
  induction sizes generalizing entries with
  | nil => exact h
  | cons entry sizes ih =>
    obtain ⟨key, size⟩ := entry
    rw [List.foldl_cons]
    obtain ⟨hsize, hbelow⟩ := List.forall_mem_cons.1 hbelow
    refine ih ⟨(List.pairwise_cons.1 hsizes.ascending).2, hbelow⟩ hbelow _ ?_
    dsimp only
    -- a size that is known is left as it is
    split
    · exact h
    · exact h.insert hsize

/-- The cache after it is written back to a file with some sizes. -/
def merged (cache : SizeCache) (sizes : CacheText.Sizes) : SizeCache :=
  { cache.absorb sizes with dirty := false }

@[simp] theorem get?_merged (cache : SizeCache) (sizes : CacheText.Sizes) (insn : String) :
    (cache.merged sizes).get? insn = (cache.get? insn).or (sizes.get? insn) :=
  cache.get?_absorb sizes insn

theorem flush_of_clean (h : cache.dirty = false) (file? : Option String) :
    cache.flush file? = .ok (cache, none) := by
  rw [flush, h]
  rfl

/-- Writing back reads the file first, so its sizes are not lost. -/
theorem flush_of_dirty (h : cache.dirty = true) (hfile : Parses file?) :
    cache.flush file? = .ok (cache.merged (sizesIn file?),
      some (CacheText.write (cache.merged (sizesIn file?)).entries)) := by
  rw [flush, h, entriesOf_of_parses hfile]
  rfl

theorem flush_of_not_parses (h : cache.dirty = true) (hfile : ¬ Parses file?) :
    cache.flush file? = .error .corrupt := by
  rw [flush, h, entriesOf_of_not_parses hfile]
  rfl

/-- Merging keeps all that the file has an entry for. -/
theorem keys_subset_merged (cache : SizeCache) (sizes : CacheText.Sizes) :
    sizes.keys ⊆ (cache.merged sizes).entries.keys := by
  intro key hkey
  rw [Keyed.mem_keys_iff] at hkey ⊢
  show ((cache.merged sizes).get? key).isSome
  rw [get?_merged, Option.isSome_or, hkey, Bool.or_true]

/-- The cache can be written, and a file with these sizes has what it holds if it is clean. -/
structure Covered (cache : SizeCache) (sizes : CacheText.Sizes) : Prop where
  writable : CacheText.Writable cache.entries
  clean : cache.dirty = false → cache.entries.keys ⊆ sizes.keys

variable {sizes more : CacheText.Sizes}

theorem Covered.mono (h : cache.Covered sizes) (hmore : sizes.keys ⊆ more.keys) :
    cache.Covered more :=
  ⟨h.writable, fun hclean => List.Subset.trans (h.clean hclean) hmore⟩

theorem Covered.put (h : cache.Covered sizes) (insn : String) (size : UInt32) :
    (cache.put insn size.toNat).Covered sizes := by
  refine ⟨writable_put h.writable size.toNat_lt, fun hclean => ?_⟩
  have hsame := put_of_clean hclean
  rw [hsame] at hclean ⊢
  exact h.clean hclean

theorem covered_load (h : CacheText.Writable sizes) : Covered { entries := sizes } sizes :=
  ⟨h, fun _ => List.Subset.refl _⟩

theorem Covered.merged (h : cache.Covered sizes) (hsizes : CacheText.Writable sizes) :
    (cache.merged sizes).Covered (cache.merged sizes).entries :=
  covered_load (writable_absorb h.writable hsizes)

end SizeCache

/-! ## Steps -/

/-- What is done with one of the caches. -/
inductive CacheStep (ι : Type) where
  | load (cache : ι)
  | put (cache : ι) (insn : String) (size : UInt32)
  | get (cache : ι) (insn : String)
  | flush (cache : ι)
  deriving DecidableEq, Repr

/-- The cache that the step is about. -/
def CacheStep.cache {ι : Type} : CacheStep ι → ι
  | load i | put i _ _ | get i _ | flush i => i

/-- A file and the caches over it. -/
structure SharedFile (ι : Type) where
  file? : Option String
  /-- A cache is empty until it is loaded. -/
  caches : ι → SizeCache := fun _ => {}

namespace SharedFile

variable {ι : Type} [DecidableEq ι]

/-- The result of a step, and the state after it. A step that fails changes nothing. -/
def step (s : SharedFile ι) : CacheStep ι → Except CacheError (Option Nat) × SharedFile ι
  | .load i =>
    match SizeCache.load s.file? with
    | .ok cache => (.ok none, { s with caches := Function.update s.caches i cache })
    | .error e => (.error e, s)
  | .put i insn size =>
    let cache := (s.caches i).put insn size.toNat
    (.ok none, { s with caches := Function.update s.caches i cache })
  | .get i insn => (.ok ((s.caches i).get? insn), s)
  | .flush i =>
    match (s.caches i).flush s.file? with
    | .ok (cache, text?) =>
      (.ok none, { file? := text?.or s.file?, caches := Function.update s.caches i cache })
    | .error e => (.error e, s)

/-- The state after some steps. -/
def run (s : SharedFile ι) (steps : List (CacheStep ι)) : SharedFile ι :=
  steps.foldl (fun s step => (s.step step).2) s

/-- The sizes in the file. -/
def sizes (s : SharedFile ι) : CacheText.Sizes := SizeCache.sizesIn s.file?

variable {s : SharedFile ι} {i : ι}

@[simp] theorem run_nil : s.run [] = s := rfl

@[simp] theorem run_cons (step : CacheStep ι) (steps : List (CacheStep ι)) :
    s.run (step :: steps) = (s.step step).2.run steps := rfl

theorem run_append (steps more : List (CacheStep ι)) :
    s.run (steps ++ more) = (s.run steps).run more := List.foldl_append

/-- A step of one cache leaves the others alone. -/
theorem caches_step_of_ne {step : CacheStep ι} (h : i ≠ step.cache) :
    (s.step step).2.caches i = s.caches i := by
  cases step with
  | load j =>
    unfold SharedFile.step
    dsimp only
    split
    · exact Function.update_of_ne h _ _
    · rfl
  | put j insn size => exact Function.update_of_ne h _ _
  | get j insn => rfl
  | flush j =>
    -- a flush writes the file and its own cache
    unfold SharedFile.step
    dsimp only
    split
    · exact Function.update_of_ne h _ _
    · rfl

theorem step_load (h : SizeCache.Parses s.file?) : s.step (.load i) =
    (.ok none, { s with caches := Function.update s.caches i { entries := s.sizes } }) := by
  rw [step, SizeCache.load_of_parses h]
  rfl

theorem step_load_of_not_parses (h : ¬ SizeCache.Parses s.file?) :
    s.step (.load i) = (.error .corrupt, s) := by
  rw [step, SizeCache.load_of_not_parses h]

/-- A cache without new sizes is not written. -/
theorem step_flush_of_clean (h : (s.caches i).dirty = false) :
    s.step (.flush i) = (.ok none, s) := by
  rw [step, SizeCache.flush_of_clean h]
  show (_, SharedFile.mk _ _) = _
  rw [Function.update_eq_self]
  rfl

/-- After writing back, the cache and the file have the same sizes. -/
theorem step_flush_of_dirty (h : SizeCache.Parses s.file?) (hdirty : (s.caches i).dirty = true) :
    s.step (.flush i) = (.ok none,
      { file? := some (CacheText.write ((s.caches i).merged s.sizes).entries)
        caches := Function.update s.caches i ((s.caches i).merged s.sizes) }) := by
  rw [step, SizeCache.flush_of_dirty hdirty h]
  rfl

theorem step_flush_of_not_parses (h : ¬ SizeCache.Parses s.file?)
    (hdirty : (s.caches i).dirty = true) : s.step (.flush i) = (.error .corrupt, s) := by
  rw [step, SizeCache.flush_of_not_parses hdirty h]

/-! ## What every step keeps -/

/-- The file parses, and has what the clean caches hold. -/
structure Sound (s : SharedFile ι) : Prop where
  parses : SizeCache.Parses s.file?
  covered : ∀ i, (s.caches i).Covered s.sizes

omit [DecidableEq ι] in
theorem sound_start {file? : Option String} (h : SizeCache.Parses file?) :
    Sound ({ file? } : SharedFile ι) :=
  ⟨h, fun _ => ⟨CacheText.Writable.nil, fun _ => List.nil_subset _⟩⟩

theorem Sound.update (h : s.Sound) {cache : SizeCache} (hcache : cache.Covered s.sizes) (i : ι) :
    Sound { s with caches := Function.update s.caches i cache } :=
  ⟨h.parses, (Function.forall_update_iff s.caches fun _ cache => cache.Covered s.sizes).2
    ⟨hcache, fun j _ => h.covered j⟩⟩

omit [DecidableEq ι] in
theorem Sound.merged (h : s.Sound) (i : ι) : ((s.caches i).merged s.sizes).Covered
    ((s.caches i).merged s.sizes).entries :=
  (h.covered i).merged (SizeCache.writable_sizesIn s.file?)

/-- What a cache writes back is read as what it then holds. -/
theorem Sound.sizes_flush (h : s.Sound) (hdirty : (s.caches i).dirty = true) :
    (s.step (.flush i)).2.sizes = ((s.caches i).merged s.sizes).entries := by
  rw [step_flush_of_dirty h.parses hdirty]
  exact SizeCache.sizesIn_write (h.merged i).writable

/-- No step takes an instruction out of the file. -/
theorem Sound.keys_step (h : s.Sound) (step : CacheStep ι) :
    s.sizes.keys ⊆ (s.step step).2.sizes.keys := by
  cases step with
  | load i =>
    rw [step_load h.parses]
    exact List.Subset.refl _
  | put i insn size => exact List.Subset.refl _
  | get i insn => exact List.Subset.refl _
  | flush i =>
    cases hdirty : (s.caches i).dirty with
    | false =>
      rw [step_flush_of_clean hdirty]
      exact List.Subset.refl _
    | true =>
      rw [h.sizes_flush hdirty]
      -- Only a flush writes the file, and what it writes holds the keys it read.
      exact (s.caches i).keys_subset_merged s.sizes

/-- All steps keep the file readable and the clean caches covered by it. -/
theorem Sound.step (h : s.Sound) (step : CacheStep ι) : (s.step step).2.Sound := by
  cases step with
  | load i =>
    rw [step_load h.parses]
    exact h.update (SizeCache.covered_load (SizeCache.writable_sizesIn s.file?)) i
  | put i insn size => exact h.update ((h.covered i).put insn size) i
  | get i insn => exact h
  | flush i =>
    cases hdirty : (s.caches i).dirty with
    | false =>
      rw [step_flush_of_clean hdirty]
      exact h
    | true =>
      -- the other caches are covered by more keys, the writing one by what it wrote
      have hcovered : ∀ j, (Function.update s.caches i ((s.caches i).merged s.sizes) j).Covered
          (s.step (.flush i)).2.sizes :=
        (Function.forall_update_iff s.caches fun _ cache => cache.Covered _).2
          ⟨h.sizes_flush hdirty ▸ h.merged i,
            fun j _ => (h.covered j).mono (h.keys_step (.flush i))⟩
      rw [step_flush_of_dirty h.parses hdirty] at hcovered ⊢
      exact ⟨SizeCache.parses_write (h.merged i).writable, hcovered⟩

theorem Sound.run (h : s.Sound) (steps : List (CacheStep ι)) : (s.run steps).Sound := by
  induction steps generalizing s with
  | nil => exact h
  | cons step steps ih => exact ih (h.step step)

/-- No run takes an instruction out of the file. -/
theorem Sound.keys_run (h : s.Sound) (steps : List (CacheStep ι)) :
    s.sizes.keys ⊆ (s.run steps).sizes.keys := by
  induction steps generalizing s with
  | nil => exact List.Subset.refl _
  | cons step steps ih => exact List.Subset.trans (h.keys_step step) (ih (h.step step))

/-! ## Interleavings -/

/-- No interleaving loses an entry. From a file that is missing or can be read, any number of caches
and any steps lead to a state in which

* the file is still missing or can be read,
* its keys stay whatever is done next,
* a cache with new sizes can be written back: then file and cache hold what either held before,
  where both had a size the one of the cache, the cache is clean and the others are as they were,
* the file has every key of a clean cache.

Besides, in any state whatsoever with a file that cannot be read, loading a cache and writing a
dirty one back fail and change nothing. -/
theorem run_loses_nothing {file? : Option String} (h : SizeCache.Parses file?)
    (steps : List (CacheStep ι)) :
    let s := ({ file? } : SharedFile ι).run steps
    SizeCache.Parses s.file? ∧
    (∀ more, s.sizes.keys ⊆ (s.run more).sizes.keys) ∧
    (∀ i, (s.caches i).dirty = true → ∃ t, s.step (.flush i) = (.ok none, t) ∧
      (∃ text, t.file? = some text ∧ CacheText.read? text = some (t.caches i).entries) ∧
      (∀ insn, (t.caches i).get? insn = ((s.caches i).get? insn).or (s.sizes.get? insn)) ∧
      (t.caches i).dirty = false ∧ ∀ j, j ≠ i → t.caches j = s.caches j) ∧
    (∀ i, (s.caches i).dirty = false → (s.caches i).entries.keys ⊆ s.sizes.keys) ∧
    ∀ s : SharedFile ι, ¬ SizeCache.Parses s.file? → ∀ i,
      s.step (.load i) = (.error .corrupt, s) ∧
      ((s.caches i).dirty = true → s.step (.flush i) = (.error .corrupt, s)) := by
  intro s
  have hs : s.Sound := (sound_start h).run steps
  refine ⟨hs.parses, hs.keys_run, fun i hdirty => ?_, fun i => (hs.covered i).clean,
    fun s hs i => ⟨step_load_of_not_parses hs, step_flush_of_not_parses hs⟩⟩
  refine ⟨_, step_flush_of_dirty hs.parses hdirty, ⟨_, rfl, ?_⟩, fun insn => ?_, ?_, fun j hj => ?_⟩
  all_goals dsimp only
  · rw [Function.update_self]
    exact CacheText.read?_write (hs.merged i).writable
  · rw [Function.update_self]
    exact SizeCache.get?_merged _ _ insn
  · rw [Function.update_self]
    rfl
  · exact Function.update_of_ne hj _ _

/-- A file with a single size. -/
def nopFile : String := "\x7b\"nop\": 2\x7d"

/-- Two caches write to one file, the second one with what it read before the first one wrote. -/
def crossedSteps : List (CacheStep Bool) :=
  [.load true, .put false "bx lr" 2, .flush false, .put true "bl f" 4]

/-- The second cache writes all three sizes: its own, that of the file, and the one the first cache
has written since. A file that does not parse is left alone. -/
theorem run_loses_nothing_crossedSteps :
    let s := ({ file? := some nopFile } : SharedFile Bool).run crossedSteps
    SizeCache.Parses (some nopFile) ∧ (s.caches true).dirty = true ∧
    (∃ t, s.step (.flush true) = (.ok none, t) ∧ (t.caches true).dirty = false ∧
      ∀ entry ∈ [("nop", 2), ("bx lr", 2), ("bl f", 4)],
        (t.caches true).get? entry.1 = some entry.2) ∧
    ¬ SizeCache.Parses (some "not json") ∧
    ({ file? := some "not json" } : SharedFile Bool).step (.load true) =
      (.error .corrupt, { file? := some "not json" }) := by
  intro s
  have hparses : SizeCache.Parses (some nopFile) := by decide +kernel
  have hcorrupt : ¬ SizeCache.Parses (some "not json") := by decide +kernel
  obtain ⟨-, -, hflush, -, hbroken⟩ := run_loses_nothing hparses crossedSteps
  have hdirty : (s.caches true).dirty = true := by decide +kernel
  obtain ⟨t, hstep, -, hget, hclean, -⟩ := hflush true hdirty
  have hunion : ∀ entry ∈ [("nop", 2), ("bx lr", 2), ("bl f", 4)],
      ((s.caches true).get? entry.1).or (s.sizes.get? entry.1) = some entry.2 := by decide +kernel
  exact ⟨hparses, hdirty, ⟨t, hstep, hclean, fun entry hentry =>
    (hget entry.1).trans (hunion entry hentry)⟩, hcorrupt, (hbroken _ hcorrupt true).1⟩

end SharedFile

end RamOverlay
