import SlotScript.Proofs.Lowers
import SlotScript.Proofs.ValueTypes

/-! # Well-typed code

Code is well-typed when every node is applied to operands of the types that its
operation is made for, reads and writes only slots of the blocks around it, and
converts a value only between numbers or where the program has a cast.  All
lowered code is well-typed (`Stmt.LowersAll.wellTyped`).

The types of the slots are kept in a list, the layout: the slot with index `i`
has the type at place `i`.  Lowering only ever extends the layout, and what is
well-typed stays so (`Code.WellTyped.mono`). -/

namespace SlotScript

/-! ### Casts of a program -/

/-- The tokens of the casts in an expression. -/
def Expr.castTokens : Expr → List Token
  | .literal _ | .var _ | .step _ _ _ => []
  | .unary _ e | .assign _ e | .grouping e => e.castTokens
  | .binary left _ right | .logical left _ right => left.castTokens ++ right.castTokens
  | .cast target e => target :: e.castTokens

mutual

/-- The tokens of the casts in a statement. -/
def Stmt.castTokens : Stmt → List Token
  | .expression e | .print e => e.castTokens
  | .block body => Stmt.allCastTokens body
  | .declare _ _ initial => (initial.map Expr.castTokens).getD []
  | .conditional _ _ condition branches => condition.castTokens ++ Stmt.allCastTokens branches

/-- The tokens of the casts in a program. -/
def Stmt.allCastTokens : List Stmt → List Token
  | [] => []
  | stmt :: rest => stmt.castTokens ++ Stmt.allCastTokens rest

end

/-- One of the cast tokens is on line `n` and names type `t`. -/
def CastAt (casts : List Token) (t : Ty) (n : Nat) : Prop :=
  ∃ k ∈ casts, Ty.ofName? k.lexeme = some t ∧ k.line = n

theorem CastAt.mono {casts casts' : List Token} {t : Ty} {n : Nat} (h : CastAt casts t n)
    (hs : casts ⊆ casts') : CastAt casts' t n := by
  obtain ⟨k, hk, ht, hn⟩ := h
  exact ⟨k, hs hk, ht, hn⟩

/-! ### The typing of code -/

/-- What code may rely on. -/
structure Code.Context where
  /-- The types of all slots, by index. -/
  layout : List Ty
  /-- The tokens of the program's casts. -/
  casts : List Token
  /-- The slots of the blocks around the code. -/
  ready : List Slot

namespace Code.Context

/-- The context inside a block with these slots. -/
def opening (Γ : Context) (slots : List Slot) : Context := { Γ with ready := slots ++ Γ.ready }

/-- The slots have the types that the layout gives them. -/
def Laid (layout : List Ty) (slots : List Slot) : Prop :=
  ∀ slot ∈ slots, layout[slot.index]? = some slot.type

/-- Whatever code may rely on in `Γ`, it may rely on in `Δ`. -/
structure Within (Γ Δ : Context) : Prop where
  layout : Γ.layout <+: Δ.layout
  casts : Γ.casts ⊆ Δ.casts
  ready : Γ.ready ⊆ Δ.ready

theorem Within.opening {Γ Δ : Context} (h : Γ.Within Δ) (slots : List Slot) :
    (Γ.opening slots).Within (Δ.opening slots) :=
  ⟨h.layout, h.casts, fun slot hs => by
    rcases List.mem_append.mp hs with hs | hs
    · exact List.mem_append_left _ hs
    · exact List.mem_append_right _ (h.ready hs)⟩

theorem Laid.mono {layout layout' : List Ty} {slots : List Slot} (h : Laid layout slots)
    (hp : layout <+: layout') : Laid layout' slots := fun slot hs => by
  obtain ⟨more, rfl⟩ := hp
  have hslot := h slot hs
  have hlt := (List.getElem?_eq_some_iff.mp hslot).1
  rw [List.getElem?_append_left hlt]
  exact hslot

theorem Within.extend {layout layout' : List Ty} {casts : List Token} {ready ready' : List Slot}
    (hp : layout <+: layout') (hr : ready ⊆ ready') :
    Within ⟨layout, casts, ready⟩ ⟨layout', casts, ready'⟩ :=
  ⟨hp, fun _ h => h, hr⟩

end Code.Context

mutual

/-- The code is well-typed in a context. -/
def Code.WellTyped (Γ : Code.Context) : Code → Prop
  | .constant v note => ∃ t, note.type = some t ∧ v.HasType t
  | .load slot note => slot ∈ Γ.ready ∧ note.type = some slot.type
  | .store slot value note =>
    slot ∈ Γ.ready ∧ value.WellTyped Γ ∧ value.type = some slot.type ∧ note.type = some slot.type
  | .convert operand note =>
    operand.WellTyped Γ ∧ ∃ s t, operand.type = some s ∧ note.type = some t ∧
      ((s.isNumeric ∧ t.isNumeric) ∨ (s.casts t ∧ CastAt Γ.casts t note.line))
  | .binary op left right note =>
    left.WellTyped Γ ∧ right.WellTyped Γ ∧ ∃ t, left.type = some t ∧ right.type = some t ∧
      op.AppliesTo t ∧ note.type = some (op.resultType t)
  | .logical _ left right note =>
    left.WellTyped Γ ∧ right.WellTyped Γ ∧ left.type = some .bool ∧ right.type = some .bool ∧
      note.type = some .bool
  | .unary op operand note =>
    operand.WellTyped Γ ∧ ∃ t, operand.type = some t ∧ op.AppliesTo t ∧ note.type = some t
  | .condition test positive negative note =>
    test.WellTyped Γ ∧ positive.WellTyped Γ ∧ negative.WellTyped Γ ∧ test.type = some .bool ∧
      positive.type = note.type ∧ negative.type = note.type
  | .call builtin arguments note =>
    Code.AllWellTyped Γ arguments ∧ ∃ ts t, arguments.map Code.type = ts.map some ∧
      builtin.Takes ts t ∧ note.type = some t
  | .print operand note => operand.WellTyped Γ ∧ note.type = none
  | .block slots body note =>
    Code.Context.Laid Γ.layout slots ∧ Code.AllWellTyped (Γ.opening slots) body ∧
      note.type = body.getLast?.bind Code.type

/-- All of the code is well-typed in a context. -/
def Code.AllWellTyped (Γ : Code.Context) : List Code → Prop
  | [] => True
  | c :: rest => c.WellTyped Γ ∧ Code.AllWellTyped Γ rest

end

open Code.Context

mutual

theorem Code.WellTyped.mono {Γ Δ : Code.Context} (hw : Γ.Within Δ) :
    ∀ {c : Code}, c.WellTyped Γ → c.WellTyped Δ
  | .constant _ _, h => h
  | .load _ _, ⟨hs, ht⟩ => ⟨hw.ready hs, ht⟩
  | .store _ _ _, ⟨hs, hv, ht⟩ => ⟨hw.ready hs, hv.mono hw, ht⟩
  | .convert _ _, ⟨ho, s, t, hs, ht, h⟩ =>
      ⟨ho.mono hw, s, t, hs, ht, h.imp_right fun h => ⟨h.1, h.2.mono hw.casts⟩⟩
  | .binary _ _ _ _, ⟨hl, hr, ht⟩ => ⟨hl.mono hw, hr.mono hw, ht⟩
  | .logical _ _ _ _, ⟨hl, hr, ht⟩ => ⟨hl.mono hw, hr.mono hw, ht⟩
  | .unary _ _ _, ⟨ho, ht⟩ => ⟨ho.mono hw, ht⟩
  | .condition _ _ _ _, ⟨hc, hp, hn, ht⟩ => ⟨hc.mono hw, hp.mono hw, hn.mono hw, ht⟩
  | .call _ _ _, ⟨ha, ht⟩ => ⟨ha.mono hw, ht⟩
  | .print _ _, ⟨ho, ht⟩ => ⟨ho.mono hw, ht⟩
  | .block slots _ _, ⟨hs, hb, ht⟩ => ⟨hs.mono hw.layout, hb.mono (hw.opening slots), ht⟩

theorem Code.AllWellTyped.mono {Γ Δ : Code.Context} (hw : Γ.Within Δ) :
    ∀ {cs : List Code}, Code.AllWellTyped Γ cs → Code.AllWellTyped Δ cs
  | [], _ => trivial
  | _ :: _, ⟨h, hs⟩ => ⟨h.mono hw, hs.mono hw⟩

end

/-! ### Operands and operators -/

namespace Code

variable {Γ : Context} {c d a b : Code} {s t : Ty}

theorem WellTyped.ofValue {v : Value} {n : Nat} (h : v.HasType t) :
    (Code.ofValue v t n).WellTyped Γ := ⟨t, rfl, h⟩

theorem WellTyped.loadFrom {slot : Slot} {n : Nat} (h : slot ∈ Γ.ready) :
    (Code.loadFrom slot n).WellTyped Γ := ⟨h, rfl⟩

theorem WellTyped.storeTo {slot : Slot} {n : Nat} (h : slot ∈ Γ.ready) (hc : c.WellTyped Γ)
    (ht : c.type = some slot.type) : (Code.storeTo slot c n).WellTyped Γ := ⟨h, hc, ht, rfl⟩

theorem WellTyped.convertTo (hc : c.WellTyped Γ) (hs : c.type = some s)
    (h : s = t ∨ (s.isNumeric ∧ t.isNumeric)) : (c.convertTo t).WellTyped Γ := by
  by_cases ht : c.type = some t
  · rw [convertTo_of_type ht]
    exact hc
  · rw [convertTo_of_ne ht]
    rcases h with rfl | h
    · exact absurd hs ht
    · exact ⟨hc, s, t, hs, rfl, .inl h⟩

theorem WellTyped.truthNumber (hc : c.WellTyped Γ) (ht : c.type = some .bool) :
    c.truthNumber.WellTyped Γ :=
  ⟨hc, .ofValue (.int 1), .ofValue (.int 0), ht, rfl, rfl⟩

theorem WellTyped.asNumeric (hc : c.WellTyped Γ) (h : c.asNumeric = .ok d) :
    d.WellTyped Γ ∧ ∃ t, d.type = some t ∧ t.isNumeric := by
  rcases asNumeric_eq_ok.mp h with ⟨t, ht, hn, rfl⟩ | ⟨ht, rfl⟩
  · exact ⟨hc, t, ht, hn⟩
  · exact ⟨hc.truthNumber ht, .int, rfl, rfl⟩

theorem WellTyped.asIntegral (hc : c.WellTyped Γ) (h : c.asIntegral = .ok d) :
    d.WellTyped Γ ∧ ∃ t, d.type = some t ∧ t.isIntegral := by
  rcases asIntegral_eq_ok.mp h with ⟨t, ht, hn, rfl⟩ | ⟨ht, rfl⟩ | ⟨ht, rfl⟩
  · exact ⟨hc, t, ht, hn⟩
  · exact ⟨hc.convertTo ht (.inr ⟨rfl, rfl⟩), .int, convertTo_type _ _, rfl⟩
  · exact ⟨hc.truthNumber ht, .int, rfl, rfl⟩

theorem WellTyped.asBoolean (hc : c.WellTyped Γ) (h : c.asBoolean = .ok d) :
    d.WellTyped Γ ∧ d.type = some .bool := by
  rcases asBoolean_eq_ok.mp h with ⟨ht, rfl⟩ | ⟨t, ht, hn, rfl⟩
  · exact ⟨hc, ht⟩
  · exact ⟨⟨hc, .ofValue (Value.default_hasType t), t, ht, rfl, nofun, rfl⟩, rfl⟩

theorem WellTyped.asStored {slot : Slot} (hc : c.WellTyped Γ) (h : c.asStored slot = .ok d) :
    d.WellTyped Γ ∧ d.type = some slot.type := by
  obtain ⟨t, ht, hw, rfl⟩ := asStored_eq_ok.mp h
  exact ⟨hc.convertTo ht (Ty.numeric_of_widens hw), convertTo_type _ _⟩

theorem WellTyped.prepared {k : Token.Kind} {o : UnaryOp} {n : Nat} (hc : c.WellTyped Γ)
    (h : c.Prepared k o d) :
    (Code.unary o d ⟨d.type, n⟩).WellTyped Γ ∧ ∃ t, d.type = some t := by
  cases h with
  | negate h =>
      obtain ⟨hd, t, ht, hn⟩ := hc.asNumeric h
      exact ⟨⟨hd, t, ht, hn, ht⟩, t, ht⟩
  | not h =>
      obtain ⟨hd, ht⟩ := hc.asBoolean h
      exact ⟨⟨hd, .bool, ht, rfl, ht⟩, .bool, ht⟩
  | complement h =>
      obtain ⟨hd, t, ht, hn⟩ := hc.asIntegral h
      exact ⟨⟨hd, t, ht, hn, ht⟩, t, ht⟩

theorem WellTyped.call {h : Builtin} {n : Nat} {s s' : Ty} (ha : a.WellTyped Γ) (hb : b.WellTyped Γ)
    (hs : a.type = some s) (hs' : b.type = some s') (ht : h.Takes [s, s'] t) :
    (Code.call h [a, b] ⟨some t, n⟩).WellTyped Γ :=
  ⟨⟨ha, hb, trivial⟩, [s, s'], t, by rw [List.map, List.map, hs, hs']; rfl, ht, rfl⟩

theorem WellTyped.combine {op : Token} (ha : a.WellTyped Γ) (hb : b.WellTyped Γ)
    (h : a.combine op b = .ok c) : c.WellTyped Γ ∧ ∃ t, c.type = some t := by
  obtain ⟨l, r, hl, hr, h⟩ := combine_eq_ok.mp h
  cases h with
  | integralPower t _ ht =>
      obtain ⟨hli, hri, ht⟩ := Ty.promoteIntegral_eq_ok.mp ht
      obtain ⟨_, _, hor, hlw, hrw⟩ := Ty.promoteNumeric_eq_ok.mp ht
      have hi : t.isIntegral := by
        rcases hor with rfl | rfl
        · exact hli
        · exact hri
      refine ⟨?_, t, rfl⟩
      apply WellTyped.call (ha.convertTo hl (Ty.numeric_of_widens hlw))
        (hb.convertTo hr (Ty.numeric_of_widens hrw)) (convertTo_type _ _) (convertTo_type _ _)
      obtain rfl | rfl := Ty.isIntegral_iff.mp hi
      · exact .intPower
      · exact .longPower
  | doublePower x y _ _ hx hy =>
      obtain ⟨hx, t, ht, hn⟩ := ha.asNumeric hx
      obtain ⟨hy, t', ht', hn'⟩ := hb.asNumeric hy
      exact ⟨.call (hx.convertTo ht (.inr ⟨hn, rfl⟩)) (hy.convertTo ht' (.inr ⟨hn', rfl⟩))
        (convertTo_type _ _) (convertTo_type _ _) .doublePower, .double, rfl⟩
  | concat _ _ => exact ⟨.call ha hb hl hr (.concat l r), .string, rfl⟩
  | operator o t _ _ ht hrel =>
      obtain ⟨ho, hlt, hrt⟩ := Ty.promote_appliesTo ht hrel
      exact ⟨⟨ha.convertTo hl hlt, hb.convertTo hr hrt, t, convertTo_type _ _, convertTo_type _ _,
        ho, rfl⟩, _, rfl⟩

theorem WellTyped.castTo {k : Token} (hc : c.WellTyped Γ) (hk : k ∈ Γ.casts)
    (h : c.castTo k.lexeme k.line = .ok d) : d.WellTyped Γ ∧ ∃ t, d.type = some t := by
  obtain ⟨s, t, hn, hs, hst, rfl⟩ := castTo_eq_ok.mp h
  split
  · exact ⟨hc, s, hs⟩
  · exact ⟨⟨hc, s, t, hs, rfl, .inr ⟨hst, k, hk, hn, rfl⟩⟩, t, rfl⟩

theorem WellTyped.stepSlot {slot : Slot} {op : Token} {one : Value} (h : slot ∈ Γ.ready)
    (hone : Lowering.stepValue? slot.type = some one) : (Code.stepSlot slot op one).WellTyped Γ := by
  obtain ⟨hn, hv⟩ := Lowering.stepValue_hasType hone
  exact .storeTo h ⟨.loadFrom h, .ofValue hv, slot.type, rfl, rfl, hn, rfl⟩ rfl

end Code

/-! ### Lowered code -/

/-- The layout has a place for every slot that was given out, and the variables
in force have the types it gives them. -/
structure Lowering.LaidOut (s : Lowering) (layout : List Ty) : Prop where
  count : layout.length = s.slotCount
  laid : Laid layout s.scope.slots

namespace Lowering.LaidOut

variable {s t : Lowering} {layout : List Ty}

theorem start : Lowering.start.LaidOut [] := ⟨rfl, nofun⟩

theorem congr (h : s.LaidOut layout) (hc : t.slotCount = s.slotCount)
    (hs : t.scope.slots = s.scope.slots) : t.LaidOut layout :=
  ⟨by rw [hc]; exact h.count, by rw [hs]; exact h.laid⟩

/-- The next slot has the type that is put at the end of the layout. -/
theorem fresh (h : s.LaidOut layout) (name : String) (type : Ty) :
    (layout ++ [type])[(s.fresh name type).index]? = some type := by
  show (layout ++ [type])[s.slotCount]? = some type
  rw [← h.count]
  simp

theorem taken (h : s.LaidOut layout) (type : Ty) : s.taken.LaidOut (layout ++ [type]) :=
  ⟨by simp [h.count], h.laid.mono (List.prefix_append _ _)⟩

theorem declared (h : s.LaidOut layout) (name : Token) (type : Ty) :
    (s.declared name type).LaidOut (layout ++ [type]) := by
  refine ⟨by simp [h.count], fun slot hs => ?_⟩
  rcases Scope.mem_slots_grow.mp hs with hs | hs
  · exact (h.taken type).laid slot hs
  · rw [List.mem_singleton.mp hs]
    exact h.fresh name.lexeme type

end Lowering.LaidOut

theorem Expr.Lowers.wellTyped {e : Expr} {s t : Lowering} {c : Code} {casts : List Token}
    (h : e.Lowers s c t) : ∀ {layout : List Ty}, s.LaidOut layout → e.castTokens ⊆ casts →
      ∃ layout', layout <+: layout' ∧ t.LaidOut layout' ∧
        c.WellTyped ⟨layout', casts, s.scope.slots⟩ ∧ ∃ τ, c.type = some τ := by
  induction h with
  | literal v s =>
      intro layout hs _
      exact ⟨layout, List.prefix_refl _, hs, .ofValue v.value_hasType, _, rfl⟩
  | grouping _ ih => exact ih
  | @var name s slot hr =>
      intro layout hs _
      exact ⟨layout, List.prefix_refl _, hs.congr rfl rfl, .loadFrom (Scope.mem_slots_of_resolve hr),
        _, rfl⟩
  | @assign target e s t slot c d hr _ hd ih =>
      intro layout hs hc
      obtain ⟨layout', hp, ht, hcode, _⟩ := ih (hs.congr rfl rfl) hc
      obtain ⟨hcode, htype⟩ := hcode.asStored hd
      exact ⟨layout', hp, ht, .storeTo (Scope.mem_slots_of_resolve hr) hcode htype, _, rfl⟩
  | unary _ hp ih =>
      intro layout hs hc
      obtain ⟨layout', hpre, ht, hcode, _⟩ := ih (hs.congr rfl rfl) hc
      obtain ⟨hcode, htype⟩ := hcode.prepared hp
      exact ⟨layout', hpre, ht, hcode, htype⟩
  | @binary left right op s t u a b c hl _ hcomb ihl ihr =>
      intro layout hs hc
      obtain ⟨layout₁, hp₁, ht, ha, _⟩ := ihl (hs.congr rfl rfl)
        (fun k hk => hc (List.mem_append_left _ hk))
      obtain ⟨layout₂, hp₂, hu, hb, _⟩ := ihr ht (fun k hk => hc (List.mem_append_right _ hk))
      rw [hl.scope_eq] at hb
      have ha := ha.mono (Within.extend hp₂ fun _ h => h)
      obtain ⟨hcode, htype⟩ := ha.combine hb hcomb
      exact ⟨layout₂, hp₁.trans hp₂, hu, hcode, htype⟩
  | @logical left right op s t u a b l r hl hlb _ hrb ihl ihr =>
      intro layout hs hc
      obtain ⟨layout₁, hp₁, ht, ha, _⟩ := ihl (hs.congr rfl rfl)
        (fun k hk => hc (List.mem_append_left _ hk))
      obtain ⟨layout₂, hp₂, hu, hb, _⟩ := ihr ht (fun k hk => hc (List.mem_append_right _ hk))
      rw [hl.scope_eq] at hb
      have ha := ha.mono (Within.extend hp₂ fun _ h => h)
      obtain ⟨hl, htl⟩ := ha.asBoolean hlb
      obtain ⟨hr, htr⟩ := hb.asBoolean hrb
      exact ⟨layout₂, hp₁.trans hp₂, hu, ⟨hl, hr, htl, htr, rfl⟩, .bool, rfl⟩
  | @cast target e s t c d _ hd ih =>
      intro layout hs hc
      obtain ⟨layout', hp, ht, hcode, _⟩ := ih (hs.congr rfl rfl)
        (fun k hk => hc (List.mem_cons_of_mem _ hk))
      obtain ⟨hcode, htype⟩ := hcode.castTo (hc List.mem_cons_self) hd
      exact ⟨layout', hp, ht, hcode, htype⟩
  | stepBefore hr hone =>
      intro layout hs _
      exact ⟨layout, List.prefix_refl _, hs.congr rfl rfl,
        .stepSlot (Scope.mem_slots_of_resolve hr) hone, _, rfl⟩
  | @stepBehind op target s slot one hr hone =>
      intro layout hs _
      have hmem : slot ∈ s.fresh "temp" slot.type :: s.scope.slots :=
        List.mem_cons_of_mem _ (Scope.mem_slots_of_resolve hr)
      refine ⟨layout ++ [slot.type], List.prefix_append _ _, (hs.taken slot.type).congr rfl rfl, ?_,
        _, rfl⟩
      refine ⟨fun temp ht => ?_, ⟨.storeTo List.mem_cons_self (.loadFrom hmem) rfl,
        .stepSlot hmem hone, .loadFrom List.mem_cons_self, trivial⟩, rfl⟩
      rw [List.mem_singleton.mp ht]
      exact hs.fresh "temp" slot.type

mutual

theorem Stmt.Lowers.wellTyped {casts : List Token} {stmt : Stmt} {s t : Lowering} {c : Code}
    {layout : List Ty} : stmt.Lowers s c t → s.LaidOut layout → stmt.castTokens ⊆ casts →
      ∃ layout', layout <+: layout' ∧ t.LaidOut layout' ∧
        c.WellTyped ⟨layout', casts, t.scope.slots⟩
  | .expression h, hs, hc => by
      obtain ⟨layout', hp, ht, hcode, _⟩ := h.wellTyped hs hc
      exact ⟨layout', hp, ht, by rw [h.scope_eq]; exact hcode⟩
  | .print h, hs, hc => by
      obtain ⟨layout', hp, ht, hcode, _⟩ := h.wellTyped hs hc
      exact ⟨layout', hp, ht, by rw [h.scope_eq]; exact hcode, rfl⟩
  | @Stmt.Lowers.declare type name s _, hs, _ => by
      refine ⟨_, List.prefix_append _ _, hs.declared name type, ?_⟩
      exact .storeTo (Scope.mem_slots_grow.mpr (.inr List.mem_cons_self))
        (.ofValue (Value.default_hasType type)) rfl
  | @Stmt.Lowers.declareInit type name e s t c d _ h hd, hs, hc => by
      obtain ⟨layout', hp, ht, hcode, _⟩ := h.wellTyped (hs.declared name type) hc
      obtain ⟨hcode, htype⟩ := hcode.asStored hd
      refine ⟨layout', (List.prefix_append _ _).trans hp, ht, ?_⟩
      rw [h.scope_eq]
      exact .storeTo (Scope.mem_slots_grow.mpr (.inr List.mem_cons_self)) hcode htype
  | @Stmt.Lowers.block body s t codes added hb hadded, hs, hc => by
      obtain ⟨layout', hp, ht, hcodes⟩ := hb.wellTyped (hs.congr rfl Scope.slots_push) hc
      have hmem : ∀ slot, slot ∈ t.scope.slots ↔ slot ∈ s.scope.slots ∨ slot ∈ added := by
        intro slot
        rw [hadded, Scope.mem_slots_grow, Scope.slots_push]
      refine ⟨layout', hp, ⟨ht.count, fun slot hslot => ht.laid slot ((hmem slot).mpr (.inl hslot))⟩,
        fun slot hslot => ht.laid slot ((hmem slot).mpr (.inr (Frame.mem_sorted.mp hslot))), ?_, rfl⟩
      refine hcodes.mono (Within.extend (List.prefix_refl _) fun slot hslot => ?_)
      rcases (hmem slot).mp hslot with h | h
      · exact List.mem_append_right _ h
      · exact List.mem_append_left _ (Frame.mem_sorted.mpr h)

/-- Lowered statements are well-typed where they stand. -/
theorem Stmt.LowersAll.wellTyped {casts : List Token} {stmts : List Stmt} {s t : Lowering}
    {codes : List Code} {layout : List Ty} :
    Stmt.LowersAll stmts s codes t → s.LaidOut layout → Stmt.allCastTokens stmts ⊆ casts →
      ∃ layout', layout <+: layout' ∧ t.LaidOut layout' ∧
        Code.AllWellTyped ⟨layout', casts, t.scope.slots⟩ codes
  | .nil s, hs, _ => ⟨layout, List.prefix_refl _, hs, trivial⟩
  | .cons h hrest, hs, hc => by
      obtain ⟨layout₁, hp₁, ht, hcode⟩ := h.wellTyped hs (fun k hk => hc (List.mem_append_left _ hk))
      obtain ⟨layout₂, hp₂, hu, hcodes⟩ :=
        hrest.wellTyped ht (fun k hk => hc (List.mem_append_right _ hk))
      refine ⟨layout₂, hp₁.trans hp₂, hu, hcode.mono (Within.extend hp₂ fun slot hslot => ?_), hcodes⟩
      obtain ⟨added, hadded⟩ := hrest.scope_grow
      rw [hadded]
      exact Scope.mem_slots_grow.mpr (.inl hslot)

end

/-- A lowered program is well-typed without any slots around it. -/
theorem lower_wellTyped {program : List Stmt} {p : Lowered} (h : lower program = .ok p) :
    ∃ layout, layout.length = p.slotCount ∧
      p.root.WellTyped ⟨layout, Stmt.allCastTokens program, []⟩ := by
  obtain ⟨codes, t, added, hl, ht, rfl⟩ := lower_eq_ok_iff.mp h
  obtain ⟨layout, _, hlaid, hcodes⟩ := hl.wellTyped .start (fun _ h => h)
  have hslots : t.scope.slots = added := by
    rw [ht]
    simp [Scope.slots, Scope.frames]
  rw [hslots] at hcodes
  refine ⟨layout, hlaid.count, ?_, hcodes.mono (Within.extend (List.prefix_refl _) ?_), rfl⟩
  · intro slot hslot
    exact hlaid.laid slot (by rw [hslots]; exact Frame.mem_sorted.mp hslot)
  · intro slot hslot
    exact List.mem_append_left _ (Frame.mem_sorted.mpr hslot)

end SlotScript
