import RamOverlay.Proofs.Size.Asking
import RamOverlay.Size.Cache
import RamOverlay.Size.Table

/-!
# The placement problem through a cache of sizes

A cache between a computation and an oracle cannot be told from the oracle, as long as what it holds
is what the oracle would answer. The argument has a pure side and a monadic one. On the pure side a
memo serves a list of queries one after the other: `Memo.serve` is the memo after them, and
`Memo.missed` are the queries that it has to pass on. On the monadic side the cached oracle does to
its state what these two say (`after_cached`), so a computation that asks some queries asks the
same ones of the cache, and `Memo.missed` of them of the oracle behind it. `build_cached` puts the
sides together for the placement problem.
-/

namespace RamOverlay

/-! ## A memo that serves queries -/

/-- Every size in the cache is what the oracle answers. -/
def SizeCache.Agrees (cache : SizeCache) (answer : Answers) : Prop :=
  ∀ insn size, cache.get? insn = some size → answer insn = .ok size

/-- A true answer may be added. -/
theorem SizeCache.Agrees.put {cache : SizeCache} {answer : Answers} (h : cache.Agrees answer)
    {insn : String} {size : Nat} (hanswer : answer insn = .ok size) :
    (cache.put insn size).Agrees answer := by
  intro other n hget
  rw [SizeCache.get?_put] at hget
  split at hget
  · grind
  · exact h other n hget

namespace Memo

variable {answer : Answers} {memo : Memo}

/-- The memo after a query. -/
def served (memo : Memo) (answer : Answers) (query : SizeQuery) : Memo :=
  match memo.cache.get? query.text with
  | some _ => { memo with hits := memo.hits + 1 }
  | none =>
    match answer query.text with
    | .ok size =>
      { memo with misses := memo.misses + 1, cache := memo.cache.put query.text size }
    | .error _ => { memo with misses := memo.misses + 1 }

/-- The memo after some queries. -/
def serve (memo : Memo) (answer : Answers) (queries : List SizeQuery) : Memo :=
  queries.foldl (fun memo query => memo.served answer query) memo

@[simp] theorem serve_nil : memo.serve answer [] = memo := rfl

@[simp] theorem serve_cons (query : SizeQuery) (queries : List SizeQuery) :
    memo.serve answer (query :: queries) = (memo.served answer query).serve answer queries := rfl

/-- The queries that the memo cannot answer when their turn comes. -/
def missed (memo : Memo) (answer : Answers) : List SizeQuery → List SizeQuery
  | [] => []
  | query :: queries =>
    let others := (memo.served answer query).missed answer queries
    if (memo.cache.get? query.text).isSome then others else query :: others

/-- Serving a question adds nothing that is wrong. -/
theorem agrees_served (h : memo.cache.Agrees answer) (query : SizeQuery) :
    (memo.served answer query).cache.Agrees answer := by
  unfold served
  split
  · exact h
  · split
    · exact h.put ‹_›
    · exact h

/-- What is known stays known. -/
theorem get?_served_of_eq_some {insn : String} {size : Nat}
    (h : memo.cache.get? insn = some size) (query : SizeQuery) :
    (memo.served answer query).cache.get? insn = some size := by
  unfold served
  split
  · exact h
  · split
    · have hne : query.text ≠ insn := by grind
      simpa [hne] using h
    · exact h

/-- What was asked for and has a size is known from then on. -/
theorem get?_served_self (h : memo.cache.Agrees answer) {query : SizeQuery} {size : Nat}
    (hanswer : answer query.text = .ok size) :
    (memo.served answer query).cache.get? query.text = some size := by
  cases hget : memo.cache.get? query.text with
  | none => simp [served, hget, hanswer]
  | some n =>
    have hn := h _ _ hget
    have hsame : n = size := by grind
    exact hsame ▸ get?_served_of_eq_some hget query

theorem count_served (query : SizeQuery) :
    (memo.served answer query).hits + (memo.served answer query).misses
      = memo.hits + memo.misses + 1 := by
  grind [served]

/-- A text that is not known is a miss. -/
theorem misses_served_of_none {query : SizeQuery} (h : memo.cache.get? query.text = none) :
    (memo.served answer query).misses = memo.misses + 1 := by
  unfold served
  rw [h]
  dsimp only
  split <;> rfl

/-- Counting one more and then some is counting one more than some. -/
theorem add_ofNat_succ (count : UInt64) (n : Nat) :
    count + 1 + .ofNat n = count + .ofNat (n + 1) := by
  rw [UInt64.ofNat_add, UInt64.add_assoc, UInt64.add_comm 1]
  rfl

theorem agrees_serve (h : memo.cache.Agrees answer) (queries : List SizeQuery) :
    (memo.serve answer queries).cache.Agrees answer := by
  induction queries generalizing memo with
  | nil => exact h
  | cons query queries ih => exact ih (agrees_served h query)

theorem get?_serve_of_eq_some {insn : String} {size : Nat} (h : memo.cache.get? insn = some size)
    (queries : List SizeQuery) : (memo.serve answer queries).cache.get? insn = some size := by
  induction queries generalizing memo with
  | nil => exact h
  | cons query queries ih => exact ih (get?_served_of_eq_some h query)

/-- What was answered is in the cache afterwards. -/
theorem get?_serve_of_mem (h : memo.cache.Agrees answer) {queries : List SizeQuery}
    {query : SizeQuery} (hquery : query ∈ queries) {size : Nat}
    (hanswer : answer query.text = .ok size) :
    (memo.serve answer queries).cache.get? query.text = some size := by
  induction queries generalizing memo with
  | nil => simp at hquery
  | cons first queries ih =>
    rcases List.mem_cons.1 hquery with rfl | hquery
    · exact get?_serve_of_eq_some (get?_served_self h hanswer) queries
    · exact ih (agrees_served h first) hquery

/-- Each question is counted once, as a hit or as a miss. -/
theorem count_serve (queries : List SizeQuery) :
    (memo.serve answer queries).hits + (memo.serve answer queries).misses
      = memo.hits + memo.misses + .ofNat queries.length := by
  induction queries generalizing memo with
  | nil => exact (UInt64.add_zero _).symm
  | cons query queries ih => rw [serve_cons, ih, count_served, List.length_cons, add_ofNat_succ]

/-- The misses are the questions that go on to the oracle. -/
theorem misses_serve (queries : List SizeQuery) :
    (memo.serve answer queries).misses
      = memo.misses + .ofNat (memo.missed answer queries).length := by
  induction queries generalizing memo with
  | nil => exact (UInt64.add_zero _).symm
  | cons query queries ih =>
    rw [serve_cons, ih, missed]
    cases hget : memo.cache.get? query.text with
    | some n => simp [served, hget]
    | none =>
      rw [misses_served_of_none hget]
      exact add_ofNat_succ _ _

/-- What the cache holds is not passed on, also not later. -/
theorem get?_of_mem_missed {queries : List SizeQuery} {query : SizeQuery}
    (h : query ∈ memo.missed answer queries) : memo.cache.get? query.text = none := by
  induction queries generalizing memo with
  | nil => simp [missed] at h
  | cons first queries ih =>
    -- what is missed later on is not held yet: the cache only grows
    have hlater : query ∈ (memo.served answer first).missed answer queries →
        memo.cache.get? query.text = none := by
      intro hmem
      cases hget : memo.cache.get? query.text with
      | none => rfl
      | some n =>
        have hnone := ih hmem
        rw [get?_served_of_eq_some hget first] at hnone
        exact hnone
    rw [missed] at h
    split at h
    case isTrue => exact hlater h
    case isFalse hnone =>
      rcases List.mem_cons.1 h with rfl | h
      · simpa using hnone
      · exact hlater h

/-- No text is passed on again once it was answered. -/
theorem nodup_missed (h : memo.cache.Agrees answer) (queries : List SizeQuery) :
    (((memo.missed answer queries).filter fun query => (answer query.text).isOk).map
      (·.text)).Nodup := by
  induction queries generalizing memo with
  | nil => simp [missed]
  | cons first queries ih =>
    have hrest := ih (agrees_served h first)
    rw [missed]
    split
    · exact hrest
    · cases hanswer : answer first.text with
      | error e => simpa [hanswer, Except.isOk, Except.toBool] using hrest
      | ok size =>
        have hcached := get?_served_self h hanswer
        rw [List.filter_cons_of_pos (by simp [hanswer, Except.isOk, Except.toBool]),
          List.map_cons, List.nodup_cons]
        -- a text that was answered is held from there on, so it is not missed again
        refine ⟨fun hmem => ?_, hrest⟩
        obtain ⟨query, hquery, htext⟩ := List.mem_map.1 hmem
        have hnone := get?_of_mem_missed (List.mem_filter.1 hquery).1
        rw [htext, hcached] at hnone
        simp at hnone

end Memo

/-! ## Oracles over a state -/

section Oracles

variable {m : Type → Type} [Monad m] {σ : Type} {M : Stateful m σ} {answer : Answers}
  {oracle : SizeOracle m} {inv : σ → Prop}

/-- An oracle that keeps a list of what it is asked. -/
def SizeOracle.recorded (oracle : SizeOracle m) : SizeOracle (StateT (List SizeQuery) m) :=
  fun query => ExceptT.mk fun queries => do
    let result ← (oracle query).run
    return (result, queries ++ [query])

/-- Recording writes the question down and answers as before. -/
theorem run_recorded (query : SizeQuery) (queries : List SizeQuery) (s : σ) :
    (M.withState _).run (oracle.recorded query).run (queries, s)
      = ((M.run (oracle query).run s).1, queries ++ [query], (M.run (oracle query).run s).2) := by
  change (let ((b, t), s) := M.run ((oracle query).run >>= fun result =>
    pure (result, queries ++ [query])) s; (b, t, s)) = _
  simp [M.run_bind, M.run_pure]

theorem gives_recorded (h : M.Gives answer oracle inv) :
    (M.withState _).Gives answer oracle.recorded fun s => inv s.2 := by
  rintro query ⟨queries, s⟩ hs
  rw [run_recorded]
  exact h query s hs

theorem after_recorded (queries asked : List SizeQuery) (s : σ) :
    (M.withState _).after oracle.recorded queries (asked, s)
      = (asked ++ queries, M.after oracle queries s) := by
  induction queries generalizing asked s with
  | nil => simp
  | cons query queries ih => simp [run_recorded, ih]

/-- What the cached oracle does to its memo and to the state behind it. -/
theorem run_cached (h : M.Gives answer oracle inv) {memo : Memo}
    (hagrees : memo.cache.Agrees answer) (query : SizeQuery) {s : σ} (hs : inv s) :
    (M.withState Memo).run (oracle.cached query).run (memo, s)
      = (answer query.text, memo.served answer query,
          if (memo.cache.get? query.text).isSome then s else (M.run (oracle query).run s).2) := by
  change (let ((b, t), s) := M.run ((oracle.cached query).run.run memo) s; (b, t, s)) = _
  simp only [SizeOracle.cached, ExceptT.run_mk, StateT.run, Memo.served]
  -- a known text is answered by the memo, any other by the oracle
  cases hget : memo.cache.get? query.text with
  | some size => simp [M.run_pure, hagrees _ _ hget]
  | none =>
    have hanswer := (h query s hs).1
    cases hresult : answer query.text with
    | ok size => simp [M.run_bind, hanswer, hresult, M.run_pure]
    | error e => simp [M.run_bind, hanswer, hresult, M.run_pure]

/-- An oracle behind a memo answers as it would without one, as long as the memo is right. -/
theorem gives_cached (h : M.Gives answer oracle inv) :
    (M.withState Memo).Gives answer oracle.cached
      fun s => s.1.cache.Agrees answer ∧ inv s.2 := by
  rintro query ⟨memo, s⟩ ⟨hagrees, hs⟩
  rw [run_cached h hagrees query hs]
  refine ⟨rfl, Memo.agrees_served hagrees query, ?_⟩
  dsimp only
  split
  · exact hs
  · exact (h query s hs).2

/-- Only what the memo does not know reaches the oracle. -/
theorem after_cached (h : M.Gives answer oracle inv) (queries : List SizeQuery) {memo : Memo}
    (hagrees : memo.cache.Agrees answer) {s : σ} (hs : inv s) :
    (M.withState Memo).after oracle.cached queries (memo, s)
      = (memo.serve answer queries, M.after oracle (memo.missed answer queries) s) := by
  induction queries generalizing memo s with
  | nil => rfl
  | cons query queries ih =>
    have hserved := Memo.agrees_served hagrees query
    rw [Stateful.after_cons, run_cached h hagrees query hs, Memo.serve_cons, Memo.missed]
    split
    · exact ih hserved hs
    · rw [Stateful.after_cons]
      exact ih hserved (h query s hs).2

end Oracles

/-! ## The placement problem -/

/-- What the oracle answers, or how it fails, depends on the text of the query alone. -/
def SizeOracle.AnswersTexts {σ : Type} (oracle : SizeOracle (StateM σ)) (answer : Answers) : Prop :=
  ∀ query s, ((oracle query).run.run s).1 = answer query.text

/-- Through a cache that agrees with the oracle the placement problem is the same, or ends in the
same error. The oracle behind the cache is asked only what the cache misses, and no text again that
it has answered; the cache then agrees with the oracle and holds every size that was needed. -/
theorem build_cached {σ : Type} {oracle : SizeOracle (StateM σ)} {answer : Answers}
    (hanswer : oracle.AnswersTexts answer) (config : Config) (graphs : List Graph) {memo : Memo}
    (hagrees : memo.cache.Agrees answer) (s : σ) :
    ∃ result queries asked memo' t t',
      (PlacementProblem.build oracle config graphs).run.run s = (result, t) ∧
      ((PlacementProblem.build oracle.recorded config graphs).run.run []).run s
        = ((result, queries), t) ∧
      ((PlacementProblem.build oracle.cached config graphs).run.run memo).run s
        = ((result, memo'), t') ∧
      (((PlacementProblem.build oracle.recorded.cached config graphs).run.run memo).run []).run s
        = (((result, memo'), asked), t') ∧
      memo'.cache.Agrees answer ∧
      (∀ query ∈ queries, ∀ size, answer query.text = .ok size →
        memo'.cache.get? query.text = some size) ∧
      memo'.hits + memo'.misses = memo.hits + memo.misses + .ofNat queries.length ∧
      memo'.misses = memo.misses + .ofNat asked.length ∧
      ((asked.filter fun query => (answer query.text).isOk).map (·.text)).Nodup := by
  obtain ⟨result, queries, hasks⟩ := exists_asks_build answer config graphs
  have hgives : (Stateful.state σ).Gives answer oracle fun _ => True :=
    fun query s _ => ⟨hanswer query s, trivial⟩
  have hbare := hasks _ _ _ _ _ hgives s trivial
  have hrecorded := hasks _ _ _ _ _ (gives_recorded hgives) ([], s) trivial
  have hcached := hasks _ _ _ _ _ (gives_cached hgives) (memo, s) ⟨hagrees, trivial⟩
  have hboth := hasks _ _ _ _ _ (gives_cached (gives_recorded hgives)) (memo, [], s)
    ⟨hagrees, trivial⟩
  rw [after_recorded, Stateful.withState_run_eq_iff] at hrecorded
  rw [after_cached hgives queries hagrees trivial, Stateful.withState_run_eq_iff] at hcached
  rw [after_cached (gives_recorded hgives) queries hagrees trivial, after_recorded,
    Stateful.withState_run_eq_iff, Stateful.withState_run_eq_iff] at hboth
  exact ⟨result, queries, memo.missed answer queries, memo.serve answer queries, _, _,
    hbare, hrecorded, hcached, hboth, Memo.agrees_serve hagrees queries,
    fun query hquery size => Memo.get?_serve_of_mem hagrees hquery,
    Memo.count_serve queries, Memo.misses_serve queries, Memo.nodup_missed hagrees queries⟩

/-- What a table of sizes answers to a text. -/
def SizeTable.answer (table : SizeTable) : Answers := fun insn =>
  match table.size? { text := insn } with
  | some size => .ok size
  | none => .error { insn, reason := "no size" }

/-- A table looks at the text of a question only. -/
theorem SizeTable.answersTexts_oracle (table : SizeTable) :
    table.oracle.AnswersTexts table.answer := by
  intro query queries
  have hsize : table.size? query = table.size? { text := query.text } := rfl
  cases h : table.size? query with
  | some size => simp [SizeTable.oracle_of_size? h, SizeTable.answer, ← hsize, h]
  | none => simp [SizeTable.oracle_of_size?_eq_none h, SizeTable.answer, ← hsize, h]

/-- A block that repeats an instruction and then has one that the table does not know. -/
def repeated : Graph := .ofBlocks "a.s" [
  { first := { address := 0, line := 1, operator := "nop" }
    rest := [
      { address := 1, line := 2, operator := "add", operands := "r0, r0, #1" },
      { address := 2, line := 3, operator := "addne", operands := "r0, r0, #1" },
      { address := 3, line := 4, operator := "frob", operands := "r1" }] }]

/-- A table with two sizes. -/
def shortSizes : SizeTable := { sizes := [("nop", 2), ("add r0, r0, #1", 2)] }

/-- A memo that holds the size of the first instruction of `repeated`. -/
def nopMemo : Memo := { cache := { entries := [("nop", 2)] } }

/-- Of the four questions the first is answered by the memo and the third by what the second left;
the last one fails, and is not remembered. -/
theorem build_cached_repeated : ∃ memo' t',
    shortSizes.oracle.AnswersTexts shortSizes.answer ∧ nopMemo.cache.Agrees shortSizes.answer ∧
    ((PlacementProblem.build shortSizes.oracle.cached {} [repeated]).run.run nopMemo).run []
      = ((.error (.oracle ⟨"frob r1", "no size"⟩), memo'), t') ∧
    memo'.cache.Agrees shortSizes.answer ∧ memo'.cache.get? "add r0, r0, #1" = some 2 ∧
    memo'.hits + memo'.misses = 4 ∧ memo'.misses = 2 := by
  have hanswer := shortSizes.answersTexts_oracle
  have hagrees : nopMemo.cache.Agrees shortSizes.answer := by
    intro insn size hget
    obtain ⟨rfl, rfl⟩ : "nop" = insn ∧ 2 = size := by
      simpa [nopMemo, SizeCache.get?, Keyed.get?] using hget
    rfl
  obtain ⟨result, queries, asked, memo', t, t', -, hbare, hcached, hbehind, hagrees', hkept, hcount,
    hmisses, -⟩ := build_cached hanswer {} [repeated] hagrees []
  have hrun :
      (((PlacementProblem.build shortSizes.oracle.recorded {} [repeated]).run.run []).run []).1
        = (.error (.oracle ⟨"frob r1", "no size"⟩),
            [⟨"nop", none⟩, ⟨"add r0, r0, #1", none⟩, ⟨"add r0, r0, #1", none⟩,
              ⟨"frob r1", none⟩]) := rfl
  have hasked :
      ((((PlacementProblem.build shortSizes.oracle.recorded.cached {} [repeated]).run.run
        nopMemo).run []).run []).1.2 = [⟨"add r0, r0, #1", none⟩, ⟨"frob r1", none⟩] := rfl
  rw [hbare] at hrun
  rw [hbehind] at hasked
  obtain ⟨rfl, rfl⟩ := Prod.mk.inj hrun
  subst hasked
  exact ⟨memo', t', hanswer, hagrees, hcached, hagrees',
    hkept ⟨"add r0, r0, #1", none⟩ (by simp) 2 rfl, hcount, hmisses⟩

end RamOverlay
