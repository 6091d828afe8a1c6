import Mathlib.Data.List.Basic
import RamOverlay.Flow.Linking
import RamOverlay.Proofs.Code.Cutting

/-!
# Linking the blocks of a unit

Linking gives each block its successors, and may turn its tail into a forced call; but for the class
of the tail it keeps the entries (`plain_linkedBlock`). It cannot fail on a fresh unit, in which no
tail is a suppressed call (`value_linkFrom`).
-/

namespace RamOverlay

/-! ## Attempts -/

namespace Attempt

variable {ε α β : Type} {x : Attempt ε α} {a : α}

theorem value_bind_of_ok (f : α → Attempt ε β) (h : x.run.value = .ok a) :
    (x >>= f).run.value = (f a).run.value := by
  rw [ExceptT.run_bind, Traced.value_bind, h]

theorem value_pure (a : α) : (pure a : Attempt ε α).run.value = .ok a := rfl

theorem value_monadLift (x : Traced α) : (monadLift x : Attempt ε α).run.value = .ok x.value := rfl

end Attempt

/-! ## Tails -/

namespace Block

theorem tailIndexOf_lt {insns : List Instruction} (h : insns ≠ []) :
    tailIndexOf insns < insns.length := by
  fun_induction tailIndexOf insns with
  | case1 => exact absurd rfl h
  | case2 => exact Nat.one_pos
  | case3 => exact Nat.two_pos
  | case4 => exact Nat.one_lt_two
  | case5 insn rest _ _ ih =>
    rw [List.length_cons]
    refine Nat.succ_lt_succ (ih ?_)
    rintro rfl
    simp_all

theorem tailIndex_lt (block : Block) : block.tailIndex < block.instructions.length :=
  tailIndexOf_lt block.instructions_ne_nil

theorem getElem?_tailIndex (block : Block) :
    block.instructions[block.tailIndex]? = some block.tail := by
  rw [tail, List.getD_eq_getElem?_getD, List.getElem?_eq_getElem block.tailIndex_lt,
    Option.getD_some]

theorem tail_mem (block : Block) : block.tail ∈ block.instructions :=
  List.mem_of_getElem? block.getElem?_tailIndex

theorem instructions_withTail (block : Block) (insn : Instruction) :
    (block.withTail insn).instructions = block.instructions.set block.tailIndex insn := by
  unfold withTail
  split
  next h => rw [h]; rfl
  next h => rw [h]; rfl

theorem tailIndexOf_cons (insn : Instruction) {rest : List Instruction} (h : 2 ≤ rest.length) :
    tailIndexOf (insn :: rest) = tailIndexOf rest + 1 := by
  match rest, h with
  | _ :: _ :: _, _ => rfl

/-- Another tail does not move the place of the tail, if it branches whenever the old one does. -/
theorem tailIndexOf_set {insns : List Instruction} {insn tail : Instruction}
    (htail : insns[tailIndexOf insns]? = some tail)
    (hbranch : tail.isBranch = true → insn.isBranch = true)
    (hdelay : insn.delaySlot = tail.delaySlot) :
    tailIndexOf (insns.set (tailIndexOf insns) insn) = tailIndexOf insns := by
  fun_induction tailIndexOf insns with
  | case1 => cases htail
  | case2 => rfl
  | case3 branch slot hslot =>
    obtain rfl : branch = tail := Option.some.inj htail
    show (if !slot.isBranch && insn.isBranch && insn.delaySlot then 0 else 1) = 0
    simp only [Bool.and_eq_true] at hslot
    rw [hbranch hslot.1.2, hdelay, hslot.1.1, hslot.2]
    rfl
  | case4 branch slot hslot =>
    -- the new entry is no delay slot either: it is a branch if the old one was
    obtain rfl : slot = tail := Option.some.inj htail
    show (if !insn.isBranch && branch.isBranch && branch.delaySlot then 0 else 1) = 1
    rw [if_neg]
    intro hinsn
    refine hslot ?_
    simp only [Bool.and_eq_true, Bool.not_eq_true'] at hinsn ⊢
    refine ⟨⟨Bool.eq_false_iff.mpr fun h => ?_, hinsn.1.2⟩, hinsn.2⟩
    rw [hbranch h] at hinsn
    exact Bool.noConfusion hinsn.1.1
  | case5 first rest hone htwo ih =>
    have hlength : 2 ≤ rest.length := by
      match rest with
      | [] => exact absurd rfl hone
      | [only] => exact absurd rfl (htwo only)
      | _ :: _ :: _ => exact Nat.le_add_left 2 _
    rw [List.set_cons_succ, tailIndexOf_cons _ (by rwa [List.length_set]), ih htail]

/-- The changed tail is the tail again if it branches at least where the old one did. -/
theorem tail_withTail {block : Block} {insn : Instruction}
    (hbranch : block.tail.isBranch = true → insn.isBranch = true)
    (hdelay : insn.delaySlot = block.tail.delaySlot) : (block.withTail insn).tail = insn := by
  have hindex : (block.withTail insn).tailIndex = block.tailIndex := by
    rw [tailIndex, instructions_withTail]
    exact tailIndexOf_set block.getElem?_tailIndex hbranch hdelay
  rw [tail, hindex, instructions_withTail, List.getD_eq_getElem?_getD,
    List.getElem?_set_self block.tailIndex_lt, Option.getD_some]

/-! ## Entries without their classes -/

end Block

/-- The entry as it comes from the parser. -/
def Instruction.plain (insn : Instruction) : Instruction := { insn with callClass := .natural }

namespace Block

/-- The entries of a block as they come from the parser. -/
def plain (block : Block) : List Instruction := block.instructions.map Instruction.plain

/-- A tail that differs in its call class only gives a block that is the same but for that. -/
theorem plain_withTail {block : Block} {insn : Instruction} (h : insn.plain = block.tail.plain) :
    (block.withTail insn).plain = block.plain := by
  unfold plain
  have hlt : block.tailIndex < (block.instructions.map Instruction.plain).length := by
    simpa using block.tailIndex_lt
  have htail : block.tail.plain = (block.instructions.map Instruction.plain)[block.tailIndex] := by
    have hget := congrArg (Option.map Instruction.plain) block.getElem?_tailIndex
    rw [← List.getElem?_map, List.getElem?_eq_getElem hlt] at hget
    exact (Option.some.inj hget).symm
  rw [instructions_withTail, List.map_set, h, htail, List.set_getElem_self]

/-- The label of a block is the one that its first entry defines. -/
theorem label?_eq_some_iff {block : Block} {label : String} :
    block.label? = some label ↔ block.first.definesLabel label = true := by
  show (if block.first.isLabel then block.first.label? else none) = some label ↔
    (block.first.isLabel && block.first.label? == some label) = true
  cases block.first.isLabel <;> simp

theorem getLast?_addresses (block : Block) :
    block.addresses.getLast? = some block.last.address := by
  rw [addresses, instructions, List.getLast?_map, List.getLast?_cons, last,
    List.getLastD_eq_getLast?]
  rfl

section Plain

variable {block block' : Block} (h : block.plain = block'.plain)
include h

theorem addresses_eq_of_plain : block.addresses = block'.addresses := by
  have haddresses : ∀ block : Block, block.addresses = block.plain.map (·.address) := by
    intro block
    rw [plain, List.map_map]
    rfl
  rw [haddresses, haddresses, h]

theorem length_eq_of_plain : block.instructions.length = block'.instructions.length := by
  have hlength := congrArg List.length h
  rwa [plain, plain, List.length_map, List.length_map] at hlength

theorem first_eq_of_plain : block.first.plain = block'.first.plain :=
  (List.cons.inj h).1

theorem address_eq_of_plain : block.address = block'.address := by
  have haddress := congrArg Instruction.address (first_eq_of_plain h)
  exact haddress

theorem definesLabel_eq_of_plain (label : String) :
    block.first.definesLabel label = block'.first.definesLabel label := by
  have hdefines := congrArg (Instruction.definesLabel · label) (first_eq_of_plain h)
  exact hdefines

theorem last_address_eq_of_plain : block.last.address = block'.last.address := by
  refine Option.some.inj ?_
  rw [← getLast?_addresses, ← getLast?_addresses, addresses_eq_of_plain h]

end Plain

end Block

/-! ## Links -/

section Link

variable (unit : SourceUnit) (routines : RoutineLabels) (blocks : List Block)

/-- What linking makes of the block at a place, if its tail is no suppressed call. -/
def linkedBlock (id : BlockId) (block : Block) : Block :=
  let next := fallthrough blocks.length id block.tail
  match if block.tail.isCall then none else block.tail.destination.label? with
  | none => { block with successors := next }
  | some label =>
    if label ∈ routines then
      { block.withTail { block.tail with callClass := .forced } with successors := next }
    else
      match (unit.addressOf? label).bind (blockAt? blocks) with
      | some target => { block with successors := addSuccessor next target }
      | none => { block with successors := next }

/-- Linking succeeds on a tail that has not been marked before, and gives the linked block. -/
theorem value_linkBlock {block : Block} (id : BlockId) (h : block.tail.callClass = .natural) :
    (linkBlock unit routines blocks id block).run.value =
      .ok (linkedBlock unit routines blocks id block) := by
  unfold linkBlock linkedBlock
  dsimp only
  generalize (if block.tail.isCall then none else block.tail.destination.label?) = label?
  cases label? with
  | none => rfl
  | some label =>
    dsimp only
    -- a label of a routine makes the tail a call, which fails only on a marked tail
    by_cases hroutine : label ∈ routines
    · simp only [if_pos hroutine, Instruction.forceCall, h]
      rfl
    · simp only [if_neg hroutine]
      cases (unit.addressOf? label).bind (blockAt? blocks) with
      | none => rfl
      | some target => rfl

/-- What linking does to a block: it gives it its fallthrough successor, and then looks at the label
of a tail that is no call. -/
inductive Linked (id : BlockId) (block : Block) : Block → Prop where
  | plain (hcall : ∀ label, block.tail.destination.label? = some label → block.tail.isCall = true) :
      Linked id block { block with successors := fallthrough blocks.length id block.tail }
  | forced {label : String} (hcall : block.tail.isCall = false)
      (hlabel : block.tail.destination.label? = some label) (hroutine : label ∈ routines) :
      Linked id block { block.withTail { block.tail with callClass := .forced } with
        successors := fallthrough blocks.length id block.tail }
  | jump {label : String} {a : Nat} {target : BlockId} (hcall : block.tail.isCall = false)
      (hlabel : block.tail.destination.label? = some label) (hlocal : label ∉ routines)
      (haddress : unit.addressOf? label = some a) (htarget : blockAt? blocks a = some target) :
      Linked id block { block with
        successors := addSuccessor (fallthrough blocks.length id block.tail) target }
  | lost {label : String} (hcall : block.tail.isCall = false)
      (hlabel : block.tail.destination.label? = some label) (hlocal : label ∉ routines)
      (hlost : ∀ a, unit.addressOf? label = some a → blockAt? blocks a = none) :
      Linked id block { block with successors := fallthrough blocks.length id block.tail }

/-- The linked block is one of the cases that `Linked` lists. -/
theorem linked_linkedBlock (id : BlockId) (block : Block) :
    Linked unit routines blocks id block (linkedBlock unit routines blocks id block) := by
  unfold linkedBlock
  dsimp only
  -- a call or a tail without a label falls through
  cases hcall : block.tail.isCall with
  | true => exact .plain fun _ _ => hcall
  | false =>
    simp only [Bool.false_eq_true, if_false]
    cases hlabel : block.tail.destination.label? with
    | none => exact .plain fun label h => by rw [hlabel] at h; cases h
    | some label =>
      dsimp only
      by_cases hroutine : label ∈ routines
      · rw [if_pos hroutine]
        exact .forced hcall hlabel hroutine
      · rw [if_neg hroutine]
        -- a local label either begins a block or is lost
        cases htarget : (unit.addressOf? label).bind (blockAt? blocks) with
        | some target =>
          obtain ⟨a, haddress, htarget⟩ := Option.bind_eq_some_iff.mp htarget
          exact .jump hcall hlabel hroutine haddress htarget
        | none => exact .lost hcall hlabel hroutine (Option.bind_eq_none_iff.mp htarget)

/-- Behind a call only the next block follows. -/
theorem linkedBlock_of_isCall (id : BlockId) {block : Block} (h : block.tail.isCall = true) :
    linkedBlock unit routines blocks id block =
      { block with successors := fallthrough blocks.length id block.tail } := by
  unfold linkedBlock
  rw [if_pos h]

/-- Linking gives every block its links, one after the other. -/
theorem value_linkFrom {rest : List Block} (id : BlockId)
    (h : ∀ block ∈ rest, block.tail.callClass = .natural) :
    (linkFrom unit routines blocks id rest).run.value =
      .ok (rest.mapIdx fun i block => linkedBlock unit routines blocks (id + i) block) := by
  induction rest generalizing id with
  | nil => rfl
  | cons block rest ih =>
    have hblock := value_linkBlock unit routines blocks id (h block List.mem_cons_self)
    have hrest := ih (id + 1) fun block hmem => h block (List.mem_cons_of_mem _ hmem)
    rw [linkFrom, Attempt.value_bind_of_ok _ hblock, Attempt.value_bind_of_ok _ hrest,
      Attempt.value_pure, List.mapIdx_cons]
    simp only [Nat.add_zero, Nat.add_assoc, Nat.add_comm 1]

/-- Linking keeps the entries but for the class of the tail. -/
theorem plain_linkedBlock (id : BlockId) (block : Block) :
    (linkedBlock unit routines blocks id block).plain = block.plain := by
  unfold linkedBlock
  dsimp only
  split
  next => rfl
  next =>
    split
    next => exact Block.plain_withTail rfl
    next => split <;> rfl

end Link

end RamOverlay
