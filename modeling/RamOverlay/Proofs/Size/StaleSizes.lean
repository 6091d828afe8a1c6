import RamOverlay.Proofs.Size.SharedFile
import Mathlib.Data.List.DropRight

/-!
# Stale sizes

A cache that is written back puts everything it holds into the file, also what it only read from
there. If another cache has written a different size in the meantime, the older one comes back: a
cache that has something to write keeps its size of an instruction from the last time that it was
loaded or written back, and the file takes that one.

* **`SharedFile.get?_run_of_untouched`**: the steps that leave a size of a cache as it is.
* **`SharedFile.Sound.get?_sizes_flush`**: the sizes of the file after a cache is written back.
* **`SharedFile.Sound.exists_earlier_of_clean`**: what a clean cache holds was in the file once, by
  induction on the steps from the last one back; the file need not have it any longer.
* **`SharedFile.putSince_of_flush_iff`**: writing a cache back changes only sizes that were put into
  it since, exactly if the sizes that it holds from before are still those of the file.
* **`SharedFile.get?_run_of_agree`**: this cannot go wrong for an instruction that has one size in
  the file and wherever it is put.
-/

namespace RamOverlay

variable {ι : Type} [DecidableEq ι]

namespace CacheStep

/-- The step loads the cache or writes it back. -/
def syncs (i : ι) : CacheStep ι → Bool
  | load j | flush j => j = i
  | _ => false

/-- The step puts a size of the instruction into the cache. -/
def puts (i : ι) (insn : String) : CacheStep ι → Bool
  | put j other _ => j = i && other = insn
  | _ => false

end CacheStep

namespace SharedFile

/-- The steps up to the last one that loaded the cache or wrote it back. -/
def upToSync (i : ι) (steps : List (CacheStep ι)) : List (CacheStep ι) :=
  steps.rdropWhile fun step => !step.syncs i

/-- A size of the instruction was put into the cache since it was loaded or written back. -/
def PutSince (i : ι) (insn : String) (steps : List (CacheStep ι)) : Prop :=
  ∃ step ∈ steps.rtakeWhile fun step => !step.syncs i, step.puts i insn = true

instance (i : ι) (insn : String) (steps : List (CacheStep ι)) : Decidable (PutSince i insn steps) :=
  inferInstanceAs (Decidable (∃ _ ∈ _, _))

variable {s : SharedFile ι} {i : ι} {insn : String}

/-- The steps of other caches, and those for other instructions, leave a size as it is. -/
theorem get?_step_of_untouched {step : CacheStep ι} (hsyncs : step.syncs i = false)
    (hputs : step.puts i insn = false) :
    ((s.step step).2.caches i).get? insn = (s.caches i).get? insn := by
  by_cases hi : i = step.cache
  · cases step with
    | load j => exact absurd (decide_eq_true hi.symm) (Bool.eq_false_iff.1 hsyncs)
    | put j other size =>
      obtain rfl : i = j := hi
      have hother : other ≠ insn := by simpa [CacheStep.puts] using hputs
      show ((Function.update s.caches i _) i).get? insn = _
      rw [Function.update_self, SizeCache.get?_put, if_neg hother]
    | get j other => rfl
    | flush j => exact absurd (decide_eq_true hi.symm) (Bool.eq_false_iff.1 hsyncs)
  · -- The step of another cache writes another place of the family.
    rw [caches_step_of_ne hi]

/-- A cache that neither syncs nor gets a size holds what it held. -/
theorem get?_run_of_untouched {steps : List (CacheStep ι)}
    (hsyncs : ∀ step ∈ steps, step.syncs i = false)
    (hputs : ∀ step ∈ steps, step.puts i insn = false) :
    ((s.run steps).caches i).get? insn = (s.caches i).get? insn := by
  induction steps generalizing s with
  | nil => rfl
  | cons step steps ih =>
    obtain ⟨hsync, hsyncs⟩ := List.forall_mem_cons.1 hsyncs
    obtain ⟨hput, hputs⟩ := List.forall_mem_cons.1 hputs
    rw [run_cons, ih hsyncs hputs, get?_step_of_untouched hsync hput]

/-- What was not put into a cache is as it was when the cache was loaded or written back. -/
theorem get?_run_of_not_putSince {steps : List (CacheStep ι)} (h : ¬ PutSince i insn steps) :
    ((s.run steps).caches i).get? insn = ((s.run (upToSync i steps)).caches i).get? insn := by
  have hsplit : upToSync i steps ++ steps.rtakeWhile (fun step => !step.syncs i) = steps :=
    List.rdropWhile_append_rtakeWhile
  conv_lhs => rw [← hsplit, run_append]
  refine get?_run_of_untouched (fun step hstep => ?_) fun step hstep => ?_
  · simpa using List.mem_rtakeWhile_imp hstep
  · exact Bool.eq_false_iff.2 fun hputs => h ⟨step, hstep, hputs⟩

/-- A cache with new sizes overrides the sizes of the file. -/
theorem Sound.get?_sizes_flush (h : s.Sound) (i : ι) (insn : String) :
    (s.step (.flush i)).2.sizes.get? insn =
      if (s.caches i).dirty then ((s.caches i).get? insn).or (s.sizes.get? insn)
      else s.sizes.get? insn := by
  cases hdirty : (s.caches i).dirty with
  | false => rw [step_flush_of_clean hdirty]; rfl
  | true =>
    rw [h.sizes_flush hdirty]
    exact SizeCache.get?_merged _ _ insn

/-- A cache that is clean after a step was left alone, or it holds what the file then has. -/
theorem Sound.step_of_clean (h : s.Sound) {step : CacheStep ι}
    (hclean : ((s.step step).2.caches i).dirty = false) :
    (s.step step).2.caches i = s.caches i ∨
      ((s.step step).2.caches i).entries = (s.step step).2.sizes := by
  -- only a step of the cache itself can change it
  by_cases hi : i = step.cache
  · cases step with
    | load j =>
      obtain rfl : i = j := hi
      right
      rw [step_load h.parses]
      dsimp only
      rw [Function.update_self]
      rfl
    | put j other size =>
      obtain rfl : i = j := hi
      left
      dsimp only [SharedFile.step] at hclean ⊢
      rw [Function.update_self] at hclean ⊢
      exact SizeCache.put_of_clean hclean
    | get j other => exact .inl rfl
    | flush j =>
      obtain rfl : i = j := hi
      cases hdirty : (s.caches i).dirty with
      | false =>
        left
        rw [step_flush_of_clean hdirty]
      | true =>
        right
        rw [h.sizes_flush hdirty, step_flush_of_dirty h.parses hdirty]
        dsimp only
        rw [Function.update_self]
  · exact .inl (caches_step_of_ne hi)

/-- What a clean cache holds was in the file at some time. -/
theorem Sound.exists_earlier_of_clean (h : s.Sound) (hempty : ∀ i, s.caches i = {})
    {steps : List (CacheStep ι)} {n : Nat} (hclean : ((s.run steps).caches i).dirty = false)
    (hheld : ((s.run steps).caches i).get? insn = some n) :
    ∃ before, before <+: steps ∧ (s.run before).sizes.get? insn = some n := by
  induction steps using List.reverseRecOn with
  | nil =>
    rw [run_nil, hempty] at hheld
    cases hheld
  | append_singleton steps step ih =>
    have hlast : s.run (steps ++ [step]) = ((s.run steps).step step).2 := run_append steps [step]
    rw [hlast] at hclean hheld
    rcases (h.run steps).step_of_clean hclean with hsame | hfile
    · -- the cache was as clean before the step
      rw [hsame] at hclean hheld
      obtain ⟨before, hbefore, hsize⟩ := ih hclean hheld
      exact ⟨before, hbefore.trans (List.prefix_append _ _), hsize⟩
    · rw [SizeCache.get?, hfile, ← hlast] at hheld
      exact ⟨_, List.prefix_refl _, hheld⟩

/-- Behind a load or a flush a cache is clean. -/
theorem Sound.dirty_of_syncs (h : s.Sound) {step : CacheStep ι} (hsyncs : step.syncs i = true) :
    ((s.step step).2.caches i).dirty = false := by
  cases step with
  | load j =>
    obtain rfl : j = i := of_decide_eq_true hsyncs
    rw [step_load h.parses]
    dsimp only
    rw [Function.update_self]
  | put j other size => cases hsyncs
  | get j other => cases hsyncs
  -- A flush that has nothing to write finds the cache clean already.
  | flush j =>
    obtain rfl : j = i := of_decide_eq_true hsyncs
    cases hdirty : (s.caches j).dirty with
    | false => rwa [step_flush_of_clean hdirty]
    | true =>
      rw [step_flush_of_dirty h.parses hdirty]
      dsimp only
      rw [Function.update_self]
      rfl

/-- So it is where it last met the file, or at the start. -/
theorem Sound.dirty_run_upToSync (h : s.Sound) (hempty : ∀ i, s.caches i = {}) (i : ι)
    (steps : List (CacheStep ι)) : ((s.run (upToSync i steps)).caches i).dirty = false := by
  unfold upToSync
  induction steps using List.reverseRecOn with
  | nil =>
    rw [List.rdropWhile_nil, run_nil, hempty]
  | append_singleton steps step ih =>
    rw [List.rdropWhile_concat]
    cases hsyncs : step.syncs i with
    | false => exact ih
    | true =>
      rw [Bool.not_true, if_neg Bool.false_ne_true, run_append]
      exact (h.run steps).dirty_of_syncs hsyncs

/-- When a cache is written back, the file's size of an instruction changes only if a size of it was
put into the cache since it was last loaded or written back: this holds exactly if the cache has
nothing to write, or a size was put, or the size that the cache held at that time, if any, is the
one that the file has now. Where no size was put, the file is left with one that it had at some
time. -/
theorem putSince_of_flush_iff {file? : Option String} (h : SizeCache.Parses file?)
    (steps : List (CacheStep ι)) (i : ι) {insn : String} {size : Nat} :
    let start : SharedFile ι := { file? }
    let s := start.run steps
    let t := (s.step (.flush i)).2
    s.sizes.get? insn = some size →
      ((t.sizes.get? insn ≠ some size → PutSince i insn steps) ↔
        (s.caches i).dirty = false ∨ PutSince i insn steps ∨
          ∀ held, ((start.run (upToSync i steps)).caches i).get? insn = some held → held = size) ∧
      (PutSince i insn steps ∨ ∃ before, before <+: steps ∧
        (start.run before).sizes.get? insn = t.sizes.get? insn) := by
  intro start s t hsize
  have hstart : start.Sound := sound_start h
  have hs : s.Sound := hstart.run steps
  have hflush : t.sizes.get? insn = _ := hs.get?_sizes_flush i insn
  by_cases hput : PutSince i insn steps
  · exact ⟨iff_of_true (fun _ => hput) (.inr (.inl hput)), .inl hput⟩
  -- without a put the cache holds what it held when it was clean for the last time
  have hheld : (s.caches i).get? insn = _ := get?_run_of_not_putSince hput
  have hclean := hstart.dirty_run_upToSync (fun _ => rfl) i steps
  rw [hheld, hsize] at hflush
  have hunchanged : t.sizes.get? insn = some size → ∃ before, before <+: steps ∧
      (start.run before).sizes.get? insn = t.sizes.get? insn :=
    fun hsame => ⟨steps, List.prefix_refl _, hsize.trans hsame.symm⟩
  cases hdirty : (s.caches i).dirty with
  | false =>
    rw [hdirty, if_neg Bool.false_ne_true] at hflush
    exact ⟨iff_of_true (fun hne => absurd hflush hne) (.inl rfl), .inr (hunchanged hflush)⟩
  | true =>
    rw [hdirty, if_pos rfl] at hflush
    cases hget : ((start.run (upToSync i steps)).caches i).get? insn with
    | none =>
      rw [hget, Option.none_or] at hflush
      exact ⟨iff_of_true (fun hne => absurd hflush hne) (.inr (.inr fun held h => nomatch h)),
        .inr (hunchanged hflush)⟩
    | some held =>
      rw [hget, Option.some_or] at hflush
      obtain ⟨before, hbefore, hthen⟩ := hstart.exists_earlier_of_clean (fun _ => rfl) hclean hget
      refine ⟨?_,
        .inr ⟨before, hbefore.trans (List.rdropWhile_prefix _ _), hthen.trans hflush.symm⟩⟩
      rw [hflush]
      simp [hput]

/-- The first cache writes what it knows of `nop` back, though the second one has written another
size since and nobody has put one into the first. -/
def revertingSteps : List (CacheStep Bool) :=
  [.put false "nop" 2, .flush false, .load true, .put true "nop" 4, .flush true,
    .put false "bx lr" 2]

/-- The size goes back from 4 to 2, though the first cache got no size for it since it last wrote.
-/
theorem not_putSince_revertingSteps :
    let s := ({ file? := none } : SharedFile Bool).run revertingSteps
    s.sizes.get? "nop" = some 4 ∧ (s.step (.flush false)).2.sizes.get? "nop" = some 2 ∧
      ¬ PutSince false "nop" revertingSteps := by
  decide +kernel

/-- The first cache loads the file again before it is used further. -/
def reloadingSteps : List (CacheStep Bool) :=
  [.put false "nop" 2, .flush false, .load true, .put true "nop" 4, .flush true, .load false,
    .put false "bx lr" 2]

/-- The theorem applied to `reloadingSteps`: the first cache has read the new size, so that it is
kept. -/
theorem putSince_of_flush_iff_reloadingSteps :
    let s := ({ file? := none } : SharedFile Bool).run reloadingSteps
    SizeCache.Parses none ∧ s.sizes.get? "nop" = some 4 ∧ (s.caches false).dirty = true ∧
      ¬ PutSince false "nop" reloadingSteps ∧
      (s.step (.flush false)).2.sizes.get? "nop" = some 4 := by
  intro s
  have hparses : SizeCache.Parses none := by decide
  have hsize : s.sizes.get? "nop" = some 4 := by decide +kernel
  have hput : ¬ PutSince false "nop" reloadingSteps := by decide
  have hheld : ((({ file? := none } : SharedFile Bool).run
      (upToSync false reloadingSteps)).caches false).get? "nop" = some 4 := by
    decide +kernel
  have hkept := (putSince_of_flush_iff hparses reloadingSteps false hsize).1.2
    (.inr (.inr fun held h => Option.some.inj (h.symm.trans hheld)))
  exact ⟨hparses, hsize, by decide +kernel, hput, Decidable.byContradiction fun h => hput (hkept h)⟩

/-! ## Instructions with one size -/

/-- No file and no cache has another size of the instruction. -/
structure Agrees (s : SharedFile ι) (insn : String) (size : Nat) : Prop where
  file : ∀ n, s.sizes.get? insn = some n → n = size
  caches : ∀ i n, (s.caches i).get? insn = some n → n = size

/-- A cache may be changed if it still agrees. -/
theorem Agrees.update {size : Nat} (h : s.Agrees insn size) (i : ι) (cache : SizeCache)
    (hcache : ∀ n, cache.get? insn = some n → n = size) :
    Agrees { s with caches := Function.update s.caches i cache } insn size :=
  ⟨h.file, (Function.forall_update_iff s.caches fun _ cache => ∀ n, cache.get? insn = some n →
    n = size).2 ⟨hcache, fun j _ => h.caches j⟩⟩

/-- A step keeps the file and all caches at one size, if it puts no other. -/
theorem Agrees.step {size : Nat} (h : s.Agrees insn size) (hs : s.Sound) {step : CacheStep ι}
    (hputs : ∀ i n, step = .put i insn n → n.toNat = size) : (s.step step).2.Agrees insn size := by
  cases step with
  | load i =>
    rw [step_load hs.parses]
    exact h.update i { entries := s.sizes } h.file
  | put i other n =>
    refine h.update i _ fun m hm => ?_
    rw [SizeCache.get?_put] at hm
    split at hm
    next hother => exact Option.some.inj hm ▸ hputs i n (hother ▸ rfl)
    next => exact h.caches i m hm
  | get i other => exact h
  | flush i =>
    cases hdirty : (s.caches i).dirty with
    | false =>
      rw [step_flush_of_clean hdirty]
      exact h
    | true =>
      -- the file and the cache get the same merged sizes
      have hmerged : ∀ n, ((s.caches i).merged s.sizes).get? insn = some n → n = size := by
        intro n hn
        rw [SizeCache.get?_merged] at hn
        rcases Option.or_eq_some_iff.1 hn with hown | ⟨-, hfile⟩
        · exact h.caches i n hown
        · exact h.file n hfile
      have hfile := hs.sizes_flush hdirty
      have hcaches := (h.update i _ hmerged).caches
      rw [step_flush_of_dirty hs.parses hdirty] at hfile ⊢
      refine ⟨?_, hcaches⟩
      rw [hfile]
      exact hmerged

/-- So does a run. -/
theorem Agrees.run {size : Nat} (h : s.Agrees insn size) (hs : s.Sound)
    {steps : List (CacheStep ι)} (hputs : ∀ i n, .put i insn n ∈ steps → n.toNat = size) :
    (s.run steps).Agrees insn size := by
  induction steps generalizing s with
  | nil => exact h
  | cons step steps ih =>
    refine ih (h.step hs fun i n hstep => hputs i n (hstep ▸ List.mem_cons_self)) (hs.step step) ?_
    exact fun i n hput => hputs i n (List.mem_cons_of_mem step hput)

/-- If an instruction has one size wherever it is put, and the file has no other, then no cache that
is written back brings another one into the file. -/
theorem get?_run_of_agree {file? : Option String} (h : SizeCache.Parses file?) {size : Nat}
    (hfile : ∀ n, (SizeCache.sizesIn file?).get? insn = some n → n = size)
    {steps : List (CacheStep ι)} (hputs : ∀ i n, .put i insn n ∈ steps → n.toNat = size) {n : Nat}
    (hn : (({ file? } : SharedFile ι).run steps).sizes.get? insn = some n) : n = size := by
  have hstart : Agrees ({ file? } : SharedFile ι) insn size := ⟨hfile, fun _ _ h => by cases h⟩
  exact (hstart.run (sound_start h) hputs).file n hn

end SharedFile

end RamOverlay
