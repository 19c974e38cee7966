import SlotScript.Proofs.Mirrors

/-! # Lowered code that follows direct evaluation

`Follows base s t x y R` compares a step `x` of a machine with a step `y` of direct
evaluation, started where the machine mirrors the state under the scope of `s`.
Either both succeed with results in the relation `R` and mirror each other under
the scope of `t`, or both fail with one failure and the same output.  There is a
rule for each step that code can take, and for each way of joining operands.  The
tables that the two look operators up in agree (`Direct.operators_lookup`). -/

namespace SlotScript

open Direct Outcome

/-! ### Widening -/

theorem Ty.widens_refl (t : Ty) : t.widens t := by
  unfold widens
  simp

theorem Ty.widens_antisymm {l r : Ty} (h : l.widens r) (h' : r.widens l) : l = r := by
  cases l <;> cases r <;> revert h h' <;> decide

theorem Ty.eq_wider {l r t : Ty} (h : t = l ∨ t = r) (hl : l.widens t) (hr : r.widens t) :
    t = l.wider r := by
  unfold wider
  rcases h with rfl | rfl
  · by_cases hw : t.widens r
    · rw [if_pos hw]
      exact Ty.widens_antisymm hw hr
    · rw [if_neg hw]
  · rw [if_pos hl]

/-- Operands are brought to the wider of their types. -/
theorem BinaryOp.promote_wider {o : BinaryOp} {l r t : Ty} (h : o.promote l r = .ok t) :
    t = l.wider r ∧ l.widens t ∧ r.widens t := by
  have numeric : l.promoteNumeric r = .ok t → t = l.wider r ∧ l.widens t ∧ r.widens t := by
    intro h
    obtain ⟨_, _, ht, hl, hr⟩ := Ty.promoteNumeric_eq_ok.mp h
    exact ⟨Ty.eq_wider ht hl hr, hl, hr⟩
  cases o with
  | arithmetic _ => exact numeric h
  | bitwise _ => exact numeric (Ty.promoteIntegral_eq_ok.mp h).2.2
  | comparison _ =>
      rcases Ty.promoteComparison_eq_ok.mp h with ⟨rfl, rfl⟩ | ⟨_, h⟩
      · exact ⟨Ty.eq_wider (.inl rfl) t.widens_refl t.widens_refl, t.widens_refl, t.widens_refl⟩
      · exact numeric h

namespace Value

theorem widen_self {v : Value} {t : Ty} (h : v.HasType t) : v.widen t = v := by
  cases h with
  | object _ => cases v <;> rfl
  | _ => rfl

theorem cast_self {v : Value} {t : Ty} (h : v.HasType t) : v.cast t = .ok v := by
  cases h with
  | object _ => rfl
  | _ => rfl

/-- Widening is a cast that does not fail. -/
theorem cast_of_widens {v : Value} {s t : Ty} (hv : v.HasType s) (h : s.widens t) :
    v.cast t = .ok (v.widen t) ∧ (v.widen t).HasType t := by
  by_cases hst : s = t
  · subst hst
    rw [widen_self hv]
    exact ⟨cast_self hv, hv⟩
  · cases hv with
    | int n =>
        cases t with
        | long => exact ⟨rfl, .long _⟩
        | double => exact ⟨rfl, .double _⟩
        | _ => first | exact absurd rfl hst | cases h
    | long n =>
        cases t with
        | double => exact ⟨rfl, .double _⟩
        | _ => first | exact absurd rfl hst | cases h
    | _ => cases t <;> first | exact absurd rfl hst | cases h

theorem number_hasType {v : Value} {t : Ty} (hv : v.HasType t) (ht : t.isNumeric) : v.number = v := by
  obtain rfl | rfl | rfl := Ty.isNumeric_iff.mp ht <;> cases hv <;> rfl

end Value

/-! ### Steps that follow each other -/

/-- How the two steps end. -/
inductive Ends {α β : Type} (base : ByteArray) (t : Lowering) (m : Machine) (R : α → β → Prop) :
    Except Failure α × Machine → Except Stop β × State → Prop
  | ok {a : α} {b : β} {m' : Machine} {d' : State} : R a b → Mirrors base t m' d' →
      m.Keeps t.slotCount m' → Ends base t m R (.ok a, m') (.ok b, d')
  | failed {f : Failure} {m' : Machine} {d' : State} : m'.sink = ⟨none, base ++ d'.output⟩ →
      Ends base t m R (.error f, m') (.error (.failed f), d')

/-- The step `x` of a machine follows the step `y` of direct evaluation. -/
structure Follows {α β : Type} (base : ByteArray) (s t : Lowering) (x : Exec α) (y : Direct β)
    (R : α → β → Prop) : Prop where
  ends : ∀ {m d}, Mirrors base s m d → t.slotCount ≤ m.slots.size →
    Ends base t m R (x.run m) (y.run d)

theorem Ends.cases {α β : Type} {base : ByteArray} {t : Lowering} {m : Machine} {R : α → β → Prop}
    {p : Except Failure α × Machine} {q : Except Stop β × State} (h : Ends base t m R p q) :
    (∃ a b m' d', p = (.ok a, m') ∧ q = (.ok b, d') ∧ R a b ∧ Mirrors base t m' d' ∧
        m.Keeps t.slotCount m') ∨
      ∃ f m' d', p = (.error f, m') ∧ q = (.error (.failed f), d') ∧
        m'.sink = ⟨none, base ++ d'.output⟩ := by
  cases h with
  | ok hab hm hk => exact .inl ⟨_, _, _, _, rfl, rfl, hab, hm, hk⟩
  | failed hs => exact .inr ⟨_, _, _, rfl, rfl, hs⟩

/-- The result `x` of direct evaluation is the value `v`, of the static type `t`. -/
def Value.Is (t : Ty) (v : Value) (x : Typed) : Prop := x = ⟨t, v⟩ ∧ v.HasType t

namespace Follows

variable {α β γ δ : Type} {base : ByteArray} {s t u : Lowering} {R : α → β → Prop}
  {Q : γ → δ → Prop}

theorem pure {a : α} {b : β} (h : R a b) : Follows base s s (pure a) (pure b) R :=
  ⟨fun {m _} hm _ => .ok h hm (.refl _ m)⟩

theorem bind {x : Exec α} {y : Direct β} {f : α → Exec γ} {g : β → Direct δ}
    (hx : Follows base s t x y R) (htu : t.slotCount ≤ u.slotCount)
    (hf : ∀ a b, R a b → Follows base t u (f a) (g b) Q) :
    Follows base s u (x >>= f) (y >>= g) Q := by
  refine ⟨fun {m d} hm hsize => ?_⟩
  rcases (hx.ends hm (Nat.le_trans htu hsize)).cases with
    ⟨a, b, m', d', hxm, hyd, hab, hm', hk⟩ | ⟨e, m', d', hxm, hyd, hs⟩
  · rw [Attempt.bind_of_ok hxm, Attempt.bind_of_ok hyd]
    rcases ((hf a b hab).ends hm' (by rw [hk.size]; exact hsize)).cases with
      ⟨c, c', m'', d'', hfm, hgd, hq, hm'', hk'⟩ | ⟨e, m'', d'', hfm, hgd, hs⟩
    · rw [hfm, hgd]
      exact .ok hq hm'' (hk.trans htu hk')
    · rw [hfm, hgd]
      exact .failed hs
  · rw [Attempt.bind_of_error hxm, Attempt.bind_of_error hyd]
    exact .failed hs

/-- The machine goes on alone with a step that changes nothing. -/
theorem andThen {x : Exec α} {y : Direct β} {f : α → Exec γ} {R' : γ → β → Prop}
    (hx : Follows base s t x y R)
    (hf : ∀ a b, R a b → ∃ c, f a = Pure.pure c ∧ R' c b) : Follows base s t (x >>= f) y R' := by
  refine ⟨fun {m d} hm hsize => ?_⟩
  rcases (hx.ends hm hsize).cases with
    ⟨a, b, m', d', hxm, hyd, hab, hm', hk⟩ | ⟨e, m', d', hxm, hyd, hs⟩
  · obtain ⟨c, hc, hcb⟩ := hf a b hab
    rw [Attempt.bind_of_ok hxm, hyd, hc]
    exact .ok hcb hm' hk
  · rw [Attempt.bind_of_error hxm, hyd]
    exact .failed hs

/-- Direct evaluation goes on alone with a step that changes nothing. -/
theorem andThenRight {x : Exec α} {y : Direct β} {g : β → Direct δ} {R' : α → δ → Prop}
    (hx : Follows base s t x y R)
    (hg : ∀ a b, R a b → ∃ c, g b = Pure.pure c ∧ R' a c) : Follows base s t x (y >>= g) R' := by
  refine ⟨fun {m d} hm hsize => ?_⟩
  rcases (hx.ends hm hsize).cases with
    ⟨a, b, m', d', hxm, hyd, hab, hm', hk⟩ | ⟨e, m', d', hxm, hyd, hs⟩
  · obtain ⟨c, hc, hac⟩ := hg a b hab
    rw [Attempt.bind_of_ok hyd, hxm, hc]
    exact .ok hac hm' hk
  · rw [Attempt.bind_of_error hyd, hxm]
    exact .failed hs

theorem weaken {x : Exec α} {y : Direct β} {R' : α → β → Prop} (hx : Follows base s t x y R)
    (h : ∀ a b, R a b → R' a b) : Follows base s t x y R' := by
  refine ⟨fun {m d} hm hsize => ?_⟩
  rcases (hx.ends hm hsize).cases with
    ⟨a, b, m', d', hxm, hyd, hab, hm', hk⟩ | ⟨e, m', d', hxm, hyd, hs⟩
  · rw [hxm, hyd]
    exact .ok (h a b hab) hm' hk
  · rw [hxm, hyd]
    exact .failed hs

/-- Lowering may have given out more slots in the end. -/
theorem mono {x : Exec α} {y : Direct β} (hx : Follows base s t x y R) (hs : u.scope = t.scope)
    (hc : t.slotCount ≤ u.slotCount) : Follows base s u x y R := by
  refine ⟨fun {m d} hm hsize => ?_⟩
  rcases (hx.ends hm (Nat.le_trans hc hsize)).cases with
    ⟨a, b, m', d', hxm, hyd, hab, hm', hk⟩ | ⟨e, m', d', hxm, hyd, hsink⟩
  · rw [hxm, hyd]
    exact .ok hab (hm'.congr hs hc) (hk.trans hc (.refl _ m'))
  · rw [hxm, hyd]
    exact .failed hsink

/-- The line that lowering is at does not matter. -/
theorem atLine {x : Exec α} {y : Direct β} {n : Nat} (h : Follows base (s.atLine n) t x y R) :
    Follows base s t x y R :=
  ⟨fun hm => h.ends (hm.congr rfl (Nat.le_refl _))⟩

/-- The result of an operation on values, which may fail for a line. -/
theorem result {r : Except ValueFault Value} {n : Nat} {τ : Ty} {F : ValueFault → Prop}
    (h : Yields r (·.HasType τ) F) :
    Follows base s s (valueAt n r) (do return ⟨τ, ← failAt n r⟩) (Value.Is τ) := by
  refine ⟨fun {m d} hm _ => ?_⟩
  cases r with
  | ok v => exact .ok ⟨rfl, h⟩ hm (.refl _ m)
  | error f => exact .failed hm.sink

/-- The result of an operation on values that does not fail. -/
theorem certainly {r : Except ValueFault Value} {o : Option Value} {n : Nat} {v : Value} {τ : Ty}
    (hr : r = .ok v) (ho : o = some v) (hv : v.HasType τ) :
    Follows base s s (valueAt n r) (do return ⟨τ, ← certain o⟩) (Value.Is τ) := by
  subst hr ho
  exact .pure ⟨rfl, hv⟩

theorem read {name : String} {slot : Slot} (hr : s.scope.resolve name = .ok slot) :
    Follows base s s (Machine.load slot.index) (read name) (Value.Is slot.type) := by
  refine ⟨fun {m d} hm _ => ?_⟩
  obtain ⟨v, hv, hty, hread⟩ := hm.read hr
  rw [Machine.load_run hv, hread]
  exact .ok ⟨rfl, hty⟩ hm (.refl _ m)

theorem write {name : String} {slot : Slot} {v : Value} (hr : s.scope.resolve name = .ok slot)
    (hv : v.HasType slot.type) :
    Follows base s s (Machine.store slot.index v) (write name v) fun _ _ => True := by
  refine ⟨fun {m d} hm hsize => ?_⟩
  have hi := hm.index_lt hr
  obtain ⟨d', hwrite, hm'⟩ := hm.write hr hv hsize
  rw [Machine.store_run (by omega), hwrite]
  exact .ok trivial hm' (.put m v hi)

/-- Direct evaluation alone reads a variable. -/
theorem afterRead {x : Exec α} {name : String} {slot : Slot} {g : Typed → Direct β}
    (hr : s.scope.resolve name = .ok slot)
    (h : ∀ v, v.HasType slot.type → Follows base s t x (g ⟨slot.type, v⟩) R) :
    Follows base s t x (Direct.read name >>= g) R := by
  refine ⟨fun {m d} hm hsize => ?_⟩
  obtain ⟨v, _, hty, hread⟩ := hm.read hr
  rw [Attempt.bind_of_ok hread]
  exact (h v hty).ends hm hsize

theorem print {line : Option Nat} {v : Value} :
    Follows base s s (Machine.print line v) (print v) fun _ _ => True := by
  refine ⟨fun {m d} hm _ => ?_⟩
  obtain ⟨m', d', hrun, hprint, hm', hslots⟩ := hm.print line v
  rw [hrun, hprint]
  exact .ok trivial hm' ⟨by rw [hslots], fun i _ => by rw [hslots]⟩

end Follows

/-! ### Operands -/

/-- The value `w`, of type `τ`, is made by `g` from the result `x` of direct
evaluation, whose static type is `l`. -/
def Value.MadeBy (l : Ty) (g : Value → Value) (τ : Ty) (w : Value) (x : Typed) : Prop :=
  ∃ v, x = ⟨l, v⟩ ∧ w = g v ∧ v.HasType l ∧ w.HasType τ

theorem Value.Is.madeBy {l : Ty} {v : Value} {x : Typed} (h : v.Is l x) : v.MadeBy l id l x :=
  ⟨v, h.1, rfl, h.2, h.2⟩

theorem valueAt_ok {α : Type} (n : Nat) (a : α) : valueAt n (.ok a) = pure a := rfl

namespace Follows

variable {base : ByteArray} {s t : Lowering} {c d : Code} {y : Direct Typed} {l σ τ : Ty}
  {g : Value → Value}

theorem convertTo (hc : Follows base s t c.run y (Value.MadeBy l g σ)) (ht : c.type = some σ)
    (hw : σ.widens τ) :
    Follows base s t (c.convertTo τ).run y (Value.MadeBy l (fun v => (g v).widen τ) τ) := by
  by_cases heq : c.type = some τ
  · rw [Code.convertTo_of_type heq]
    refine hc.weaken ?_
    rintro w x ⟨v, hx, rfl, hv, hw'⟩
    obtain rfl : σ = τ := Option.some.inj (ht.symm.trans heq)
    exact ⟨v, hx, (Value.widen_self hw').symm, hv, hw'⟩
  · rw [Code.convertTo_of_ne heq, Code.run]
    refine hc.andThen ?_
    rintro w x ⟨v, hx, rfl, hv, hw'⟩
    obtain ⟨hcast, hty⟩ := Value.cast_of_widens hw' hw
    refine ⟨(g v).widen τ, ?_, v, hx, rfl, hv, hty⟩
    show valueAt c.line ((g v).cast τ) = _
    rw [hcast, valueAt_ok]

theorem truthNumber (hc : Follows base s t c.run y (Value.Is .bool)) :
    Follows base s t c.truthNumber.run y (Value.MadeBy .bool Value.number .int) := by
  rw [Code.truthNumber, Code.run]
  refine hc.andThen ?_
  rintro w x ⟨rfl, hv⟩
  cases hv with
  | bool b =>
      cases b with
      | true => exact ⟨.int 1, rfl, .bool true, rfl, rfl, .bool true, .int 1⟩
      | false => exact ⟨.int 0, rfl, .bool false, rfl, rfl, .bool false, .int 0⟩

theorem asNumeric (hc : Follows base s t c.run y (Value.Is l)) (hl : c.type = some l)
    (h : c.asNumeric = .ok d) :
    d.type = some l.number ∧ l.number.isNumeric ∧
      Follows base s t d.run y (Value.MadeBy l Value.number l.number) := by
  rcases Code.asNumeric_eq_ok.mp h with ⟨t', ht, hn, rfl⟩ | ⟨ht, rfl⟩
  · obtain rfl : l = t' := Option.some.inj (hl.symm.trans ht)
    have hnum : l.number = l := by
      obtain rfl | rfl | rfl := Ty.isNumeric_iff.mp hn <;> rfl
    rw [hnum]
    refine ⟨hl, hn, hc.weaken ?_⟩
    rintro w x ⟨rfl, hv⟩
    exact ⟨w, rfl, (Value.number_hasType hv hn).symm, hv, hv⟩
  · obtain rfl : l = .bool := Option.some.inj (hl.symm.trans ht)
    exact ⟨rfl, rfl, hc.truthNumber⟩

theorem asIntegral (hc : Follows base s t c.run y (Value.Is l)) (hl : c.type = some l)
    (h : c.asIntegral = .ok d) :
    d.type = some l.whole ∧ l.whole.isIntegral ∧
      Follows base s t d.run y (Value.MadeBy l Value.whole l.whole) := by
  rcases Code.asIntegral_eq_ok.mp h with ⟨t', ht, hn, rfl⟩ | ⟨ht, rfl⟩ | ⟨ht, rfl⟩
  · obtain rfl : l = t' := Option.some.inj (hl.symm.trans ht)
    obtain rfl | rfl := Ty.isIntegral_iff.mp hn
    · refine ⟨hl, rfl, hc.weaken ?_⟩
      rintro w x ⟨rfl, hv⟩
      cases hv with | int n => exact ⟨.int n, rfl, rfl, .int n, .int n⟩
    · refine ⟨hl, rfl, hc.weaken ?_⟩
      rintro w x ⟨rfl, hv⟩
      cases hv with | long n => exact ⟨.long n, rfl, rfl, .long n, .long n⟩
  · obtain rfl : l = .double := Option.some.inj (hl.symm.trans ht)
    rw [Code.convertTo_of_ne (by rw [ht]; decide), Code.run]
    refine ⟨rfl, rfl, hc.andThen ?_⟩
    rintro w x ⟨rfl, hv⟩
    cases hv with | double n => exact ⟨_, rfl, .double n, rfl, rfl, .double n, .int _⟩
  · obtain rfl : l = .bool := Option.some.inj (hl.symm.trans ht)
    refine ⟨rfl, rfl, hc.truthNumber.weaken ?_⟩
    rintro w x ⟨v, hx, rfl, hv, hw⟩
    cases hv with | bool b => exact ⟨.bool b, hx, rfl, .bool b, hw⟩

/-- A truth value that is read off the result of direct evaluation. -/
def Truth (w : Value) (x : Typed) : Prop := ∃ b, x.value.truth? = some b ∧ w = .bool b

theorem asBoolean (hc : Follows base s t c.run y (Value.Is l)) (hl : c.type = some l)
    (h : c.asBoolean = .ok d) : d.type = some .bool ∧ Follows base s t d.run y Truth := by
  rcases Code.asBoolean_eq_ok.mp h with ⟨ht, rfl⟩ | ⟨t', ht, hn, rfl⟩
  · obtain rfl : l = .bool := Option.some.inj (hl.symm.trans ht)
    refine ⟨hl, hc.weaken ?_⟩
    rintro w x ⟨rfl, hv⟩
    cases hv with | bool b => exact ⟨b, rfl, rfl⟩
  · obtain rfl : l = t' := Option.some.inj (hl.symm.trans ht)
    rw [Code.nonzero, Code.run]
    refine ⟨rfl, hc.andThen ?_⟩
    rintro w x ⟨rfl, hv⟩
    obtain rfl | rfl | rfl := Ty.isNumeric_iff.mp hn
    · cases hv with | int n => exact ⟨_, rfl, _, rfl, rfl⟩
    · cases hv with | long n => exact ⟨_, rfl, _, rfl, rfl⟩
    · cases hv with | double n => exact ⟨_, rfl, _, rfl, rfl⟩

end Follows

/-! ### Operators -/

namespace Direct

/-- Direct evaluation and lowering find the same operator for a token. -/
theorem operators_lookup (k : Token.Kind) : operators.lookup k = BinaryOp.ofKind? k := by
  cases k <;> rfl

theorem typeOf_eq_resultType (o : BinaryOp) (t : Ty) : typeOf o t = o.resultType t := by
  cases o <;> rfl

/-- Direct evaluation and lowering step a variable by the same number. -/
theorem one_eq_stepValue (t : Ty) : one? t = Lowering.stepValue? t := by
  cases t <;> rfl

end Direct

open Follows

theorem Code.Prepared.follows {base : ByteArray} {s t : Lowering} {c d : Code} {y : Direct Typed}
    {l : Ty} {op : Token} {o : UnaryOp} (h : c.Prepared op.kind o d) (n : Nat)
    (hc : Follows base s t c.run y (Value.Is l)) (hl : c.type = some l) :
    ∃ τ, d.type = some τ ∧
      Follows base s t (Code.unary o d ⟨d.type, n⟩).run (y >>= applyUnary op) (Value.Is τ) := by
  rw [Code.run]
  generalize hk : op.kind = k at h
  cases h with
  | negate hd =>
      obtain ⟨ht, hn, hf⟩ := hc.asNumeric hl hd
      refine ⟨l.number, ht, hf.bind (Nat.le_refl _) ?_⟩
      rintro w x ⟨v, rfl, rfl, _, hw⟩
      obtain ⟨r, hr, hty⟩ := UnaryOp.onValue_hasType (show UnaryOp.negate.AppliesTo _ from hn) hw
      simp only [applyUnary, hk]
      exact .certainly hr (by rw [hr]; rfl) hty
  | not hd =>
      obtain ⟨ht, hf⟩ := hc.asBoolean hl hd
      refine ⟨.bool, ht, hf.bind (Nat.le_refl _) ?_⟩
      rintro w x ⟨b, hb, rfl⟩
      simp only [applyUnary, hk, hb]
      exact .pure ⟨rfl, .bool _⟩
  | complement hd =>
      obtain ⟨ht, hn, hf⟩ := hc.asIntegral hl hd
      refine ⟨l.whole, ht, hf.bind (Nat.le_refl _) ?_⟩
      rintro w x ⟨v, rfl, rfl, _, hw⟩
      obtain ⟨r, hr, hty⟩ := UnaryOp.onValue_hasType (show UnaryOp.complement.AppliesTo _ from hn) hw
      simp only [applyUnary, hk]
      exact .certainly hr (by rw [hr]; rfl) hty

theorem Code.run_call_pair (h : Builtin) (a b : Code) (note : Code.Note) :
    (Code.call h [a, b] note).run = (do
      let v ← a.run
      let w ← b.run
      valueAt note.line (h.onValues [v, w])) := by
  rw [Code.run]
  simp only [Code.runArguments, Attempt.bind_assoc, Attempt.pure_bind]

theorem Code.Combined.follows {base : ByteArray} {s t u : Lowering} {left right c : Code}
    {x y : Direct Typed} {l r : Ty} {op : Token} (h : Code.Combined left l op right r c)
    (htu : t.slotCount ≤ u.slotCount) (hx : Follows base s t left.run x (Value.Is l))
    (hy : Follows base t u right.run y (Value.Is r)) (hl : left.type = some l)
    (hr : right.type = some r) :
    ∃ τ, c.type = some τ ∧
      Follows base s u c.run (do applyBinary op (← x) (← y)) (Value.Is τ) := by
  have hx' : Follows base s t left.run x (Value.MadeBy l id l) := hx.weaken fun _ _ h => h.madeBy
  have hy' : Follows base t u right.run y (Value.MadeBy r id r) := hy.weaken fun _ _ h => h.madeBy
  cases h with
  | integralPower τ hk hτ =>
      obtain ⟨hli, hri, hτ⟩ := Ty.promoteIntegral_eq_ok.mp hτ
      obtain ⟨_, _, hor, hlw, hrw⟩ := Ty.promoteNumeric_eq_ok.mp hτ
      have hwide := Ty.eq_wider hor hlw hrw
      refine ⟨τ, rfl, ?_⟩
      rw [Code.run_call_pair]
      refine (hx'.convertTo hl hlw).bind htu ?_
      rintro a p ⟨v, rfl, rfl, _, ha⟩
      refine (hy'.convertTo hr hrw).bind (Nat.le_refl _) ?_
      rintro b q ⟨w, rfl, rfl, _, hb⟩
      simp only [applyBinary, if_pos hk, Direct.raise, hli, hri, Bool.and_self, if_true, ← hwide, id] at ha hb ⊢
      have hτi : τ.isIntegral := by
        rcases hor with rfl | rfl
        · exact hli
        · exact hri
      generalize v.widen τ = a at ha
      generalize w.widen τ = b at hb
      obtain rfl | rfl := Ty.isIntegral_iff.mp hτi
      · cases ha with | int m => cases hb with | int n => exact .certainly rfl rfl (.int _)
      · cases ha with | long m => cases hb with | long n => exact .certainly rfl rfl (.long _)
  | doublePower a b hk hi ha hb =>
      obtain ⟨hat, han, ha⟩ := hx.asNumeric hl ha
      obtain ⟨hbt, hbn, hb⟩ := hy.asNumeric hr hb
      have widens : ∀ {t : Ty}, t.isNumeric → t.widens .double := fun {t} ht => by
        obtain rfl | rfl | rfl := Ty.isNumeric_iff.mp ht <;> rfl
      refine ⟨.double, rfl, ?_⟩
      rw [Code.run_call_pair]
      refine (ha.convertTo hat (widens han)).bind htu ?_
      rintro a p ⟨v, rfl, rfl, _, ha⟩
      refine (hb.convertTo hbt (widens hbn)).bind (Nat.le_refl _) ?_
      rintro b q ⟨w, rfl, rfl, _, hb⟩
      simp only [applyBinary, if_pos hk, Direct.raise, hi, Bool.false_eq_true, if_false] at ha hb ⊢
      generalize v.number.widen .double = a at ha
      generalize w.number.widen .double = b at hb
      cases ha with | double m => cases hb with | double n => exact .certainly rfl rfl (.double _)
  | concat hk hs =>
      refine ⟨.string, rfl, ?_⟩
      rw [Code.run_call_pair]
      refine hx.bind htu ?_
      rintro v p ⟨rfl, _⟩
      refine hy.bind (Nat.le_refl _) ?_
      rintro w q ⟨rfl, _⟩
      have hpow : op.kind ≠ .power := by rw [hk]; decide
      simp only [applyBinary, if_neg hpow, if_pos (And.intro hk hs)]
      exact .pure ⟨rfl, .string _⟩
  | operator o τ hs ho hτ hrel =>
      obtain ⟨hwide, hlw, hrw⟩ := BinaryOp.promote_wider hτ
      refine ⟨o.resultType τ, rfl, ?_⟩
      rw [Code.run]
      refine (hx'.convertTo hl hlw).bind htu ?_
      rintro a p ⟨v, rfl, rfl, _, ha⟩
      refine (hy'.convertTo hr hrw).bind (Nat.le_refl _) ?_
      rintro b q ⟨w, rfl, rfl, _, hb⟩
      have hpow : op.kind ≠ .power := fun hp => by rw [hp] at ho; cases ho
      simp only [applyBinary, if_neg hpow, if_neg hs, operators_lookup, ho, typeOf_eq_resultType,
        ← hwide]
      exact .result (BinaryOp.onValues_yields (Ty.promote_appliesTo hτ hrel).1 ha hb)

namespace Follows

variable {base : ByteArray} {s t u : Lowering} {x y : Direct Typed}

/-- The right operand runs only if the left one leaves the answer open. -/
theorem logical {l r : Code} (op : Token) (note : Code.Note) (hscope : u.scope = t.scope)
    (htu : t.slotCount ≤ u.slotCount) (hl : Follows base s t l.run x Truth)
    (hr : Follows base t u r.run y Truth) :
    Follows base s u (Code.logical (.ofKind op.kind) l r note).run
      (do
        let decided ← certain (← x).value.truth?
        if decided = decide (op.kind = .or) then return ⟨.bool, .bool decided⟩
        else return ⟨.bool, .bool (← certain (← y).value.truth?)⟩) (Value.Is .bool) := by
  have hdecided : ∀ b, Follows base t u (do return .bool b) (do return ⟨.bool, .bool b⟩)
      (Value.Is .bool) := fun b => (Follows.pure ⟨rfl, .bool b⟩).mono hscope htu
  have hopen : Follows base t u r.run
      (do return ⟨.bool, .bool (← certain (← y).value.truth?)⟩) (Value.Is .bool) := by
    refine hr.andThenRight ?_
    rintro w y ⟨b, hb, rfl⟩
    exact ⟨_, by rw [hb]; rfl, rfl, .bool b⟩
  by_cases hk : op.kind = .or
  · rw [LogicOp.ofKind, if_pos hk, Code.run]
    refine hl.bind htu ?_
    rintro w x ⟨p, hp, rfl⟩
    simp only [hp, hk, certain_some, Attempt.pure_bind, decide_true]
    cases p with
    | true => exact hdecided true
    | false => exact hopen
  · rw [LogicOp.ofKind, if_neg hk, Code.run]
    refine hl.bind htu ?_
    rintro w x ⟨p, hp, rfl⟩
    simp only [hp, hk, certain_some, Attempt.pure_bind, decide_false]
    cases p with
    | true => exact hopen
    | false => exact hdecided false

/-- A cast to the type that an operand has already leaves no code behind. -/
theorem castTo {c d : Code} {l : Ty} {target : Token} (hc : Follows base s t c.run x (Value.Is l))
    (hl : c.type = some l) (h : c.castTo target.lexeme target.line = .ok d) :
    ∃ τ, d.type = some τ ∧
      Follows base s t d.run
        (do
          let x ← x
          let t ← certain (Ty.ofName? target.lexeme)
          return ⟨t, ← failAt target.line (x.value.cast t)⟩) (Value.Is τ) := by
  obtain ⟨source, τ, hn, hs, hcast, rfl⟩ := Code.castTo_eq_ok.mp h
  obtain rfl : l = source := Option.some.inj (hl.symm.trans hs)
  by_cases heq : l = τ
  · subst heq
    rw [if_pos rfl]
    refine ⟨l, hl, hc.andThenRight ?_⟩
    rintro v x ⟨rfl, hv⟩
    simp only [hn, certain_some, Attempt.pure_bind, Value.cast_self hv, failAt_ok]
    exact ⟨_, rfl, rfl, hv⟩
  · rw [if_neg heq, Code.run]
    refine ⟨τ, rfl, hc.bind (Nat.le_refl _) ?_⟩
    rintro v x ⟨rfl, hv⟩
    simp only [hn, certain_some, Attempt.pure_bind]
    exact .result (Value.cast_yields hcast hv)

end Follows

end SlotScript
