/-! # Attempts

An attempt is a computation on a state that may fail.  It leaves a state behind
in either case, so what was done before a failure is not undone. -/

namespace SlotScript

/-- A computation on a state `σ` that gives an `α` or fails with an `ε`, and
leaves a state in both cases. -/
def Attempt (σ ε α : Type) : Type := σ → Except ε α × σ

namespace Attempt

variable {σ ε α β : Type}

/-- Starts an attempt in a state. -/
def run (x : Attempt σ ε α) (s : σ) : Except ε α × σ := x s

/-- Goes on after a success, in the state it left. -/
def andThen (x : Attempt σ ε α) (f : α → Attempt σ ε β) : Attempt σ ε β := fun s =>
  match x s with
  | (.ok a, t) => f a t
  | (.error e, t) => (.error e, t)

instance : Monad (Attempt σ ε) where
  pure a := fun s => (.ok a, s)
  bind := andThen

/-- The state. -/
def get : Attempt σ ε σ := fun s => (.ok s, s)

/-- Changes the state. -/
def modify (f : σ → σ) : Attempt σ ε Unit := fun s => (.ok (), f s)

/-- Fails, with the state as it is. -/
def fail (e : ε) : Attempt σ ε α := fun s => (.error e, s)

/-- A result that is known without the state. -/
def ofExcept (r : Except ε α) : Attempt σ ε α := fun s => (r, s)

@[simp] theorem pure_run (a : α) (s : σ) : (pure a : Attempt σ ε α).run s = (.ok a, s) := rfl

@[simp] theorem get_run (s : σ) : (get : Attempt σ ε σ).run s = (.ok s, s) := rfl

@[simp] theorem modify_run (f : σ → σ) (s : σ) :
    (modify f : Attempt σ ε Unit).run s = (.ok (), f s) := rfl

@[simp] theorem fail_run (e : ε) (s : σ) : (fail e : Attempt σ ε α).run s = (.error e, s) := rfl

@[simp] theorem ofExcept_run (r : Except ε α) (s : σ) :
    (ofExcept r : Attempt σ ε α).run s = (r, s) := rfl

theorem bind_run (x : Attempt σ ε α) (f : α → Attempt σ ε β) (s : σ) :
    (x >>= f).run s =
      match x.run s with
      | (.ok a, t) => (f a).run t
      | (.error e, t) => (.error e, t) := rfl

end Attempt

end SlotScript
