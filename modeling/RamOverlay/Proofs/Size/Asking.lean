import RamOverlay.Placement.Problem

/-!
# What a computation asks

A computation over a size oracle runs in whatever monad the oracle runs in. If the answer to a query
depends on its text alone, the computation has one result and makes one list of queries, over every
such oracle and in every monad that keeps a state. `Asks` says so; it is kept by the ways in which
the placement problem puts computations together, so `exists_asks_build` follows the recursions of
that problem over routines, blocks and instructions.
-/

namespace RamOverlay

/-- A monad whose computations take a state and give a result and a state. -/
structure Stateful (m : Type → Type) [Monad m] (σ : Type) where
  run : {α : Type} → m α → σ → α × σ
  run_pure {α : Type} (a : α) (s : σ) : run (pure a) s = (a, s)
  run_bind {α β : Type} (x : m α) (f : α → m β) (s : σ) :
    run (x >>= f) s = run (f (run x s).1) (run x s).2
  run_map {α β : Type} (f : α → β) (x : m α) (s : σ) :
    run (f <$> x) s = (f (run x s).1, (run x s).2)

namespace Stateful

variable {m : Type → Type} [Monad m] {σ : Type}

def state (σ : Type) : Stateful (StateM σ) σ where
  run x s := x.run s
  run_pure _ _ := rfl
  run_bind _ _ _ := rfl
  run_map _ _ _ := rfl

/-- A monad that keeps one more state. -/
def withState (M : Stateful m σ) (τ : Type) : Stateful (StateT τ m) (τ × σ) where
  run x s :=
    let ((a, t), s) := M.run (x.run s.1) s.2
    (a, t, s)
  run_pure a s := by simp [M.run_pure]
  run_bind x f s := by simp [M.run_bind]
  run_map f x s := by
    change (let ((b, t), s) := M.run (x.run s.1 >>= fun p => pure (f p.1, p.2)) s.2; (b, t, s)) = _
    simp [M.run_bind, M.run_pure]

theorem withState_run_eq_iff {M : Stateful m σ} {τ α : Type} {x : StateT τ m α} {a : α} {b c : τ}
    {s t : σ} : (M.withState τ).run x (b, s) = (a, c, t) ↔ M.run (x.run b) s = ((a, c), t) := by
  simp [withState, Prod.ext_iff, and_assoc]

/-- The state after some queries, whatever their answers. -/
def after (M : Stateful m σ) (oracle : SizeOracle m) (queries : List SizeQuery) (s : σ) : σ :=
  queries.foldl (fun s query => (M.run (oracle query).run s).2) s

@[simp] theorem after_nil (M : Stateful m σ) (oracle : SizeOracle m) (s : σ) :
    M.after oracle [] s = s := rfl

@[simp] theorem after_cons (M : Stateful m σ) (oracle : SizeOracle m) (query : SizeQuery)
    (queries : List SizeQuery) (s : σ) :
    M.after oracle (query :: queries) s
      = M.after oracle queries (M.run (oracle query).run s).2 := rfl

@[simp] theorem after_append (M : Stateful m σ) (oracle : SizeOracle m)
    (queries others : List SizeQuery) (s : σ) :
    M.after oracle (queries ++ others) s = M.after oracle others (M.after oracle queries s) := by
  simp [after]

end Stateful

/-- What an oracle answers to the text of an instruction. -/
abbrev Answers := String → Except OracleError Nat

section Answering

variable {m : Type → Type} [Monad m] {σ : Type}

/-- From every state in which `inv` holds the oracle gives the answers, and it keeps `inv`. -/
def Stateful.Gives (M : Stateful m σ) (answer : Answers) (oracle : SizeOracle m)
    (inv : σ → Prop) : Prop :=
  ∀ query s, inv s →
    (M.run (oracle query).run s).1 = answer query.text ∧ inv (M.run (oracle query).run s).2

/-- What holds before the questions holds behind them. -/
theorem Stateful.Gives.after {M : Stateful m σ} {answer : Answers} {oracle : SizeOracle m}
    {inv : σ → Prop} (h : M.Gives answer oracle inv) (queries : List SizeQuery) {s : σ}
    (hs : inv s) : inv (M.after oracle queries s) := by
  induction queries generalizing s with
  | nil => exact hs
  | cons query queries ih => exact ih (h query s hs).2

end Answering

/-- A computation over a size oracle, in any monad. -/
abbrev Asker (ε α : Type) := (m : Type → Type) → [Monad m] → SizeOracle m → ExceptT ε m α

/-- Over every oracle with these answers the computation makes the queries and ends in the
result. -/
def Asker.Asks {ε α : Type} (x : Asker ε α) (answer : Answers) (result : Except ε α)
    (queries : List SizeQuery) : Prop :=
  ∀ (m : Type → Type) [Monad m] (σ : Type) (M : Stateful m σ) (oracle : SizeOracle m)
    (inv : σ → Prop), M.Gives answer oracle inv → ∀ s, inv s →
      M.run (x m oracle).run s = (result, M.after oracle queries s)

namespace Asker

variable {ε δ α β : Type} {answer : Answers}

theorem asks_pure (a : α) : Asks (fun _ _ _ => (pure a : ExceptT ε _ α)) answer (.ok a) [] :=
  fun _ _ _ M _ _ _ s _ => M.run_pure _ s

theorem asks_throw (e : ε) : Asks (fun _ _ _ => (throw e : ExceptT ε _ α)) answer (.error e) [] :=
  fun _ _ _ M _ _ _ s _ => M.run_pure _ s

theorem asks_oracle (query : SizeQuery) :
    Asks (fun _ _ oracle => oracle query) answer (answer query.text) [query] := by
  intro m _ σ M oracle inv hgives s hs
  simp [← (hgives query s hs).1]

/-- A computation that ends in an error is not followed by another one. -/
theorem Asks.bind_error {x : Asker ε α} {f : α → Asker ε β} {e : ε} {queries : List SizeQuery}
    (hx : x.Asks answer (.error e) queries) :
    Asks (fun m _ oracle => x m oracle >>= fun a => f a m oracle) answer (.error e) queries := by
  intro m _ σ M oracle inv hgives s hs
  have hrun := hx m σ M oracle inv hgives s hs
  rw [ExceptT.run_bind, M.run_bind, hrun]
  exact M.run_pure _ _

/-- After a part that succeeds, the questions of the rest follow. -/
theorem Asks.bind_ok {x : Asker ε α} {f : α → Asker ε β} {a : α} {result : Except ε β}
    {queries others : List SizeQuery} (hx : x.Asks answer (.ok a) queries)
    (hf : (f a).Asks answer result others) :
    Asks (fun m _ oracle => x m oracle >>= fun a => f a m oracle) answer result
      (queries ++ others) := by
  intro m _ σ M oracle inv hgives s hs
  have hrun := hx m σ M oracle inv hgives s hs
  have hnext := hf m σ M oracle inv hgives _ (hgives.after queries hs)
  rw [ExceptT.run_bind, M.run_bind, hrun, M.after_append]
  exact hnext

/-- Telling an error otherwise asks nothing. -/
theorem Asks.adapt {x : Asker ε α} {result : Except ε α} {queries : List SizeQuery} (f : ε → δ)
    (hx : x.Asks answer result queries) :
    Asks (fun m _ oracle => (x m oracle).adapt f) answer (result.mapError f) queries := by
  intro m _ σ M oracle inv hgives s hs
  have hrun := hx m σ M oracle inv hgives s hs
  change M.run (Except.mapError f <$> (x m oracle).run) s = _
  rw [M.run_map, hrun]

/-- Two computations one after the other ask a list of queries if each of them does. -/
theorem exists_asks_bind {x : Asker ε α} {f : α → Asker ε β}
    (hx : ∃ result queries, x.Asks answer result queries)
    (hf : ∀ a, ∃ result queries, (f a).Asks answer result queries) :
    ∃ result queries,
      Asks (fun m _ oracle => x m oracle >>= fun a => f a m oracle) answer result queries := by
  obtain ⟨result, queries, hx⟩ := hx
  cases result with
  | error e => exact ⟨_, _, hx.bind_error⟩
  | ok a =>
    obtain ⟨_, _, hf⟩ := hf a
    exact ⟨_, _, hx.bind_ok hf⟩

end Asker

section Problem

variable (answer : Answers)

/-- An entry asks for its own size at most. -/
theorem exists_asks_size (insn : Instruction) :
    ∃ result queries, Asker.Asks (fun _ _ oracle => insn.size oracle) answer result queries := by
  cases hquery : insn.sizeQuery? with
  | none =>
    simp only [Instruction.size, hquery]
    exact ⟨_, _, Asker.asks_pure 0⟩
  | some query =>
    simp only [Instruction.size, hquery]
    exact ⟨_, _, Asker.asks_oracle query⟩

theorem exists_asks_cost (insn : Instruction) :
    ∃ result queries, Asker.Asks (fun _ _ oracle => insn.cost oracle) answer result queries := by
  obtain ⟨_, _, hsize⟩ := exists_asks_size answer insn
  refine Asker.exists_asks_bind ⟨_, _, hsize.adapt CostError.oracle⟩ fun size => ?_
  cases insn.cycles size with
  | ok cycles => exact ⟨_, _, Asker.asks_pure _⟩
  | error e => exact ⟨_, _, Asker.asks_throw e⟩

/-- The entries of a block are asked for one after the other. -/
theorem exists_asks_costFrom (insns : List Instruction) (total : Cost) :
    ∃ result queries,
      Asker.Asks (fun _ _ oracle => Block.costFrom oracle total insns) answer result queries := by
  induction insns generalizing total with
  | nil => exact ⟨_, _, Asker.asks_pure total⟩
  | cons insn rest ih =>
    exact Asker.exists_asks_bind (exists_asks_cost answer insn) fun cost => ih (total + cost)

/-- The blocks of a routine are asked for one after the other. -/
theorem exists_asks_routineBlocks (config : Config) (graph : Graph) (routine offset : Nat)
    (entries : List (BlockId × Node)) :
    ∃ result queries,
      Asker.Asks (fun _ _ oracle =>
          PlacementProblem.routineBlocks oracle config graph routine offset entries)
        answer result queries := by
  induction entries with
  | nil => exact ⟨_, _, Asker.asks_pure []⟩
  | cons entry rest ih =>
    obtain ⟨id, node⟩ := entry
    refine Asker.exists_asks_bind (exists_asks_costFrom answer node.block.instructions _)
      fun cost => ?_
    exact Asker.exists_asks_bind ih fun others => ⟨_, _, Asker.asks_pure _⟩

theorem exists_asks_blocksFrom (config : Config) (routine offset : Nat) (graphs : List Graph) :
    ∃ result queries,
      Asker.Asks (fun _ _ oracle =>
          PlacementProblem.blocksFrom oracle config routine offset graphs)
        answer result queries := by
  induction graphs generalizing routine offset with
  | nil => exact ⟨_, _, Asker.asks_pure []⟩
  | cons graph rest ih =>
    refine Asker.exists_asks_bind
      (exists_asks_routineBlocks answer config graph routine offset graph.entries)
      fun blocks => ?_
    exact Asker.exists_asks_bind (ih (routine + 1) (offset + graph.size))
      fun others => ⟨_, _, Asker.asks_pure _⟩

/-- So what building a problem asks depends on the answers alone. -/
theorem exists_asks_build (config : Config) (graphs : List Graph) :
    ∃ result queries,
      Asker.Asks (fun _ _ oracle => PlacementProblem.build oracle config graphs)
        answer result queries :=
  Asker.exists_asks_bind (exists_asks_blocksFrom answer config 0 0 graphs)
    fun _ => ⟨_, _, Asker.asks_pure _⟩

end Problem

end RamOverlay
