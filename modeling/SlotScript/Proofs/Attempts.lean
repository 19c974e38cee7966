import SlotScript.Attempt

/-! # Results of attempts

An attempt made of two steps succeeds exactly when the first step succeeds and
the second succeeds from the state that the first leaves (`Attempt.bind_eq_ok`).
The same holds for results without a state (`Outcome.bind_eq_ok`).  With the
lemmas on single steps these two open every `do` block of the library. -/

namespace SlotScript

namespace Attempt

variable {σ ε α β : Type}

theorem bind_of_ok {x : Attempt σ ε α} {s t : σ} {a : α} (h : x.run s = (.ok a, t))
    (f : α → Attempt σ ε β) : (x >>= f).run s = (f a).run t := by
  rw [bind_run, h]

theorem bind_of_error {x : Attempt σ ε α} {s t : σ} {e : ε} (h : x.run s = (.error e, t))
    (f : α → Attempt σ ε β) : (x >>= f).run s = (.error e, t) := by
  rw [bind_run, h]

theorem pure_bind (a : α) (f : α → Attempt σ ε β) : (pure a >>= f) = f a := rfl

theorem bind_assoc {γ : Type} (x : Attempt σ ε α) (f : α → Attempt σ ε β)
    (g : β → Attempt σ ε γ) : ((x >>= f) >>= g) = x >>= fun a => f a >>= g := by
  funext s
  cases hx : x.run s with
  | mk r t =>
      cases r with
      | ok a =>
          show ((x >>= f) >>= g).run s = (x >>= fun a => f a >>= g).run s
          rw [bind_of_ok hx, bind_run, bind_of_ok hx, ← bind_run]
      | error e =>
          show ((x >>= f) >>= g).run s = (x >>= fun a => f a >>= g).run s
          rw [bind_of_error hx, bind_of_error (bind_of_error hx f)]

theorem bind_eq_ok {x : Attempt σ ε α} {f : α → Attempt σ ε β} {s u : σ} {b : β} :
    (x >>= f).run s = (.ok b, u) ↔
      ∃ a t, x.run s = (.ok a, t) ∧ (f a).run t = (.ok b, u) := by
  constructor
  · intro h
    cases hx : x.run s with
    | mk r t =>
        cases r with
        | ok a => exact ⟨a, t, rfl, by rw [bind_of_ok hx] at h; exact h⟩
        | error e => rw [bind_of_error hx] at h; cases h
  · rintro ⟨a, t, hx, hf⟩
    rw [bind_of_ok hx, hf]

theorem pure_eq_ok {a b : α} {s t : σ} :
    (pure a : Attempt σ ε α).run s = (.ok b, t) ↔ a = b ∧ s = t := by
  rw [pure_run, Prod.mk.injEq, Except.ok.injEq]

theorem ofExcept_eq_ok {r : Except ε α} {a : α} {s t : σ} :
    (ofExcept r : Attempt σ ε α).run s = (.ok a, t) ↔ r = .ok a ∧ s = t := by
  rw [ofExcept_run, Prod.mk.injEq]

end Attempt

namespace Outcome

variable {ε ε' α β : Type}

theorem bind_eq_ok {x : Except ε α} {f : α → Except ε β} {b : β} :
    (x >>= f) = .ok b ↔ ∃ a, x = .ok a ∧ f a = .ok b := by
  cases x with
  | ok a => simp [bind, Except.bind]
  | error e => simp [bind, Except.bind]

theorem pure_eq_ok {a b : α} : (pure a : Except ε α) = .ok b ↔ a = b := by
  rw [show (pure a : Except ε α) = .ok a from rfl, Except.ok.injEq]

theorem throw_ne_ok {e : ε} {a : α} : (throw e : Except ε α) ≠ .ok a := by
  rw [show (throw e : Except ε α) = .error e from rfl]
  exact fun h => nomatch h

theorem mapError_eq_ok {x : Except ε α} {f : ε → ε'} {a : α} :
    x.mapError f = .ok a ↔ x = .ok a := by
  cases x with
  | ok b =>
      show (Except.ok b : Except ε' α) = .ok a ↔ _
      rw [Except.ok.injEq, Except.ok.injEq]
  | error e =>
      show (Except.error (f e) : Except ε' α) = .ok a ↔ _
      simp

theorem map_eq_ok {x : Except ε α} {f : α → β} {b : β} :
    x.map f = .ok b ↔ ∃ a, x = .ok a ∧ f a = b := by
  cases x with
  | ok a =>
      show (Except.ok (f a) : Except ε β) = .ok b ↔ _
      simp
  | error e =>
      show (Except.error e : Except ε β) = .ok b ↔ _
      simp

theorem map_eq_error {x : Except ε α} {f : α → β} {e : ε} :
    x.map f = .error e ↔ x = .error e := by
  cases x with
  | ok a =>
      show (Except.ok (f a) : Except ε β) = .error e ↔ _
      simp
  | error e' =>
      show (Except.error e' : Except ε β) = .error e ↔ _
      rw [Except.error.injEq, Except.error.injEq]

/-- A success satisfies `Q`, and a failure satisfies `E`. -/
def Yields (r : Except ε α) (Q : α → Prop) (E : ε → Prop) : Prop :=
  match r with
  | .ok a => Q a
  | .error e => E e

@[simp] theorem yields_ok {a : α} {Q : α → Prop} {E : ε → Prop} :
    Yields (.ok a : Except ε α) Q E ↔ Q a := Iff.rfl

@[simp] theorem yields_error {e : ε} {Q : α → Prop} {E : ε → Prop} :
    Yields (.error e : Except ε α) Q E ↔ E e := Iff.rfl

theorem Yields.mono {r : Except ε α} {Q Q' : α → Prop} {E E' : ε → Prop} (h : Yields r Q E)
    (hQ : ∀ a, Q a → Q' a) (hE : ∀ e, E e → E' e) : Yields r Q' E' := by
  cases r with
  | ok a => exact hQ a h
  | error e => exact hE e h

theorem Yields.bind {x : Except ε α} {f : α → Except ε β} {Q : α → Prop} {R : β → Prop}
    {E : ε → Prop} (hx : Yields x Q E) (hf : ∀ a, Q a → Yields (f a) R E) :
    Yields (x >>= f) R E := by
  cases x with
  | ok a => exact hf a hx
  | error e => exact hx

theorem Yields.mapError {r : Except ε α} {f : ε → ε'} {Q : α → Prop} {E : ε → Prop}
    {E' : ε' → Prop} (h : Yields r Q E) (hE : ∀ e, E e → E' (f e)) :
    Yields (r.mapError f) Q E' := by
  cases r with
  | ok a => exact h
  | error e => exact hE e h

end Outcome

/-! ### Attempts from every state -/

namespace Attempt

variable {σ ε α β : Type} {Q : α → Prop} {R : β → Prop} {E : ε → Prop}

/-- From every state, a success satisfies `Q`, and a failure satisfies `E`. -/
def Ensures (x : Attempt σ ε α) (Q : α → Prop) (E : ε → Prop) : Prop :=
  ∀ s, Outcome.Yields (x.run s).1 Q E

theorem ensures_pure {a : α} (h : Q a) : Ensures (pure a : Attempt σ ε α) Q E := fun _ => h

theorem ensures_fail {e : ε} (h : E e) : Ensures (fail e : Attempt σ ε α) Q E := fun _ => h

theorem ensures_ofExcept {r : Except ε α} (h : Outcome.Yields r Q E) :
    Ensures (ofExcept r : Attempt σ ε α) Q E := fun _ => h

theorem Ensures.bind {x : Attempt σ ε α} {f : α → Attempt σ ε β} (hx : Ensures x Q E)
    (hf : ∀ a, Q a → Ensures (f a) R E) : Ensures (x >>= f) R E := by
  intro s
  have hfirst := hx s
  cases h : x.run s with
  | mk r t =>
      rw [h] at hfirst
      cases r with
      | ok a =>
          rw [bind_of_ok h]
          exact hf a hfirst t
      | error e =>
          rw [bind_of_error h]
          exact hfirst

end Attempt

end SlotScript
