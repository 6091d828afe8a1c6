import RamOverlay.Event

/-!
# Results with events

A `Traced α` is a value together with the events reported on the way to it, in order. The value of
a chain does not depend on the events, so laws about values are stated on `value` alone.
-/

namespace RamOverlay

/-- A value and the events reported while it was made. -/
structure Traced (α : Type) where
  value : α
  events : List Event := []

namespace Traced

variable {α β : Type}

instance : Monad Traced where
  pure a := ⟨a, []⟩
  bind x f := ⟨(f x.value).value, x.events ++ (f x.value).events⟩

def report (event : Event) : Traced Unit := ⟨(), [event]⟩

@[simp] theorem value_pure (a : α) : (pure a : Traced α).value = a := rfl

@[simp] theorem events_pure (a : α) : (pure a : Traced α).events = [] := rfl

@[simp] theorem value_bind (x : Traced α) (f : α → Traced β) :
    (x >>= f).value = (f x.value).value := rfl

@[simp] theorem events_bind (x : Traced α) (f : α → Traced β) :
    (x >>= f).events = x.events ++ (f x.value).events := rfl

@[simp] theorem value_map (f : α → β) (x : Traced α) : (f <$> x).value = f x.value := rfl

@[simp] theorem events_map (f : α → β) (x : Traced α) : (f <$> x).events = x.events := by
  simp [Functor.map]

@[simp] theorem value_report (event : Event) : (report event).value = () := rfl

@[simp] theorem events_report (event : Event) : (report event).events = [event] := rfl

theorem ext {x y : Traced α} (hv : x.value = y.value) (he : x.events = y.events) : x = y := by
  cases x; cases y; simp_all

instance : LawfulMonad Traced :=
  LawfulMonad.mk' Traced
    (fun _ => ext rfl (by simp))
    (fun _ _ => ext rfl (by simp))
    (fun _ _ _ => ext rfl (by simp))

end Traced

/-- A traced computation that may stop with an error; the events before the error are kept. -/
abbrev Attempt (ε : Type) := ExceptT ε Traced

def Attempt.ofExcept {ε α : Type} (x : Except ε α) : Attempt ε α := ⟨x, []⟩

end RamOverlay
