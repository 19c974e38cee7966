import SlotScript.Program
import SlotScript.Proofs.Follows

/-! # Lowering preserves meaning

The code of an expression follows its direct evaluation (`Expr.Lowers.follows`),
and so does the code of statements, if the slots of the variables that they
declare hold default values (`Stmt.LowersAll.follows`).  A block sees to that
before its body runs, and slots that are given out later are left alone till
then.  `execute_eq_evaluate` is the result for programs: lowered and run, they
print what direct evaluation prints, and fail where it fails. -/

namespace SlotScript

open Direct Lowering Outcome

/-! ### Stepping a variable -/

section

variable {slot temp : Slot} {op : Token} {one v w : Value} {m m' : Machine} {c : Code} {n : Nat}

theorem Code.loadFrom_run (h : m.slots[slot.index]? = some v) :
    (Code.loadFrom slot n).run.run m = (.ok v, m) := by
  rw [Code.loadFrom, Code.run]
  exact Machine.load_run h

theorem Code.storeTo_run (hc : c.run.run m = (.ok v, m')) (h : slot.index < m'.slots.size) :
    (Code.storeTo slot c n).run.run m = (.ok v, m'.put slot.index v) := by
  rw [Code.storeTo, Code.run, Attempt.bind_of_ok hc, Attempt.bind_of_ok (Machine.store_run h)]
  rfl

theorem Code.stepSlot_run (hv : m.slots[slot.index]? = some v)
    (hw : (BinaryOp.arithmetic (.ofStep op.kind)).onValues v one = .ok w) :
    (Code.stepSlot slot op one).run.run m = (.ok w, m.put slot.index w) := by
  refine Code.storeTo_run ?_ (Array.getElem?_eq_some_iff.mp hv).1
  rw [Code.run, Attempt.bind_of_ok (Code.loadFrom_run hv), Code.ofValue, Code.run,
    Attempt.pure_bind, hw]
  rfl

/-- The old value of a variable is kept in a temporary slot while it is stepped. -/
theorem Code.stepBehind_run (ht : temp.index < m.slots.size) (hne : temp.index ≠ slot.index)
    (hv : m.slots[slot.index]? = some v)
    (hw : (BinaryOp.arithmetic (.ofStep op.kind)).onValues v one = .ok w) :
    (Code.ofBlock [temp] [.storeTo temp (.loadFrom slot op.line) op.line, .stepSlot slot op one,
        .loadFrom temp op.line] op.line).run.run m =
      (.ok v, ((m.put temp.index (.default temp.type)).put temp.index v).put slot.index w) := by
  have hreset : (Slot.resetAll [temp]).run m = (.ok (), m.put temp.index (.default temp.type)) :=
    Machine.resetAll_run fun slot hs => by rw [List.mem_singleton.mp hs]; exact ht
  generalize hm₁ : m.put temp.index (.default temp.type) = m₁ at hreset
  have hv₁ : m₁.slots[slot.index]? = some v := by
    rw [← hm₁, Machine.get_put_of_ne hne]
    exact hv
  have ht₁ : temp.index < m₁.slots.size := by
    rw [← hm₁, Machine.put_size]
    exact ht
  have hsave : (Code.storeTo temp (.loadFrom slot op.line) op.line).run.run m₁ =
      (.ok v, m₁.put temp.index v) := Code.storeTo_run (Code.loadFrom_run hv₁) ht₁
  have hstep : (Code.stepSlot slot op one).run.run (m₁.put temp.index v) =
      (.ok w, (m₁.put temp.index v).put slot.index w) :=
    Code.stepSlot_run (by rw [Machine.get_put_of_ne hne]; exact hv₁) hw
  have hload : (Code.loadFrom temp op.line).run.run ((m₁.put temp.index v).put slot.index w) =
      (.ok v, (m₁.put temp.index v).put slot.index w) :=
    Code.loadFrom_run (by rw [Machine.get_put_of_ne hne.symm, Machine.get_put ht₁])
  rw [Code.ofBlock, Code.run, Attempt.bind_of_ok hreset, Code.runBody, Attempt.bind_of_ok hsave,
    Code.runBody, Attempt.bind_of_ok hstep, Code.runBody, Attempt.bind_of_ok hload]
  rfl

end

/-- Direct evaluation of a step, and the machine that mirrors its outcome. -/
theorem Mirrors.step {base : ByteArray} {s : Lowering} {m : Machine} {d : State} {target : Token}
    {slot : Slot} {one : Value} (hm : Mirrors base s m d) (op : Token)
    (hsize : s.slotCount ≤ m.slots.size)
    (hr : s.scope.resolve target.lexeme = .ok slot) (hone : stepValue? slot.type = some one) :
    ∃ v w d', m.slots[slot.index]? = some v ∧
      (BinaryOp.arithmetic (.ofStep op.kind)).onValues v one = .ok w ∧
      v.HasType slot.type ∧ w.HasType slot.type ∧ Mirrors base s (m.put slot.index w) d' ∧
      ∀ isPrefix, (Expr.step op target isPrefix).eval.run d =
        (.ok ⟨slot.type, if isPrefix then w else v⟩, d') := by
  obtain ⟨v, hv, hty, hread⟩ := hm.read hr
  obtain ⟨hn, hty'⟩ := stepValue_hasType hone
  have hyields := BinaryOp.onValues_yields
    (show (BinaryOp.arithmetic (.ofStep op.kind)).AppliesTo slot.type from hn) hty hty'
  have hsum : ∃ w, (BinaryOp.arithmetic (.ofStep op.kind)).onValues v one = .ok w ∧
      w.HasType slot.type := by
    cases hw : (BinaryOp.arithmetic (.ofStep op.kind)).onValues v one with
    | ok w =>
        rw [hw] at hyields
        exact ⟨w, rfl, hyields⟩
    | error f =>
        -- Neither sums nor differences fail.
        rw [hw] at hyields
        obtain ⟨⟨o, ho, hdiv⟩, -⟩ := hyields
        cases ho
        unfold Arithmetic.ofStep at hdiv
        split at hdiv <;> rcases hdiv with h | h <;> cases h
  obtain ⟨w, hw, hwt⟩ := hsum
  obtain ⟨d', hwrite, hm'⟩ := hm.write hr hwt hsize
  refine ⟨v, w, d', hv, hw, hty, hwt, hm', fun isPrefix => ?_⟩
  rw [Expr.eval, Attempt.bind_of_ok hread]
  simp only [one_eq_stepValue, hone]
  show (failAt op.line ((BinaryOp.arithmetic (.ofStep op.kind)).onValues v one) >>= _).run d = _
  rw [hw, failAt_ok, Attempt.pure_bind, Attempt.bind_of_ok hwrite]
  rfl

namespace Follows

variable {base : ByteArray} {s : Lowering} {target : Token} {slot : Slot} {one : Value}

theorem stepBefore (op : Token) (hr : s.scope.resolve target.lexeme = .ok slot)
    (hone : stepValue? slot.type = some one) :
    Follows base s (s.atLine op.line) (Code.stepSlot slot op one).run
      (Expr.step op target true).eval (Value.Is slot.type) := by
  refine ⟨fun {m d} hm hsize => ?_⟩
  obtain ⟨v, w, d', hv, hw, _, hwt, hm', heval⟩ := hm.step op hsize hr hone
  rw [Code.stepSlot_run hv hw, heval]
  exact .ok ⟨rfl, hwt⟩ (hm'.congr rfl (Nat.le_refl _)) (.put m w (hm.index_lt hr))

/-- The temporary slot is the first that no variable has, so the state is mirrored
as well when it has been written. -/
theorem stepBehind (op : Token) (hr : s.scope.resolve target.lexeme = .ok slot)
    (hone : stepValue? slot.type = some one) :
    Follows base s (s.atLine op.line).taken
      (Code.ofBlock [s.fresh "temp" slot.type]
        [.storeTo (s.fresh "temp" slot.type) (.loadFrom slot op.line) op.line,
          .stepSlot slot op one, .loadFrom (s.fresh "temp" slot.type) op.line] op.line).run
      (Expr.step op target false).eval (Value.Is slot.type) := by
  refine ⟨fun {m d} hm hsize => ?_⟩
  rw [taken_slotCount, atLine_slotCount] at hsize
  have hlt := hm.index_lt hr
  have hkept : ∀ (v : Value) (i : Nat), i < s.slotCount →
      ((m.put s.slotCount (.default slot.type)).put s.slotCount v).slots[i]? = m.slots[i]? := by
    intro v i hi
    rw [Machine.get_put_of_ne (by omega), Machine.get_put_of_ne (by omega)]
  obtain ⟨v, hv, hvt, -⟩ := hm.read hr
  have hm' : Mirrors base s ((m.put s.slotCount (.default slot.type)).put s.slotCount v) d :=
    hm.keep rfl (hkept v)
  obtain ⟨v', w, d', hv', hw, -, -, hm'', heval⟩ :=
    hm'.step op (by rw [Machine.put_size, Machine.put_size]; omega) hr hone
  rw [hkept v _ hlt, hv] at hv'
  cases hv'
  have hrun := Code.stepBehind_run (show (s.fresh "temp" slot.type).index < _ from hsize)
    (Nat.ne_of_gt hlt) hv hw
  rw [hrun, heval]
  refine .ok ⟨rfl, hvt⟩ (hm''.congr rfl (Nat.le_succ _)) ?_
  have hlast := Nat.lt_succ_self s.slotCount
  exact ((Machine.Keeps.put m (.default slot.type) hlast).trans (Nat.le_refl _)
    (.put _ v hlast)).trans (Nat.le_refl _) (.put _ w (Nat.lt_succ_of_lt hlt))

end Follows

/-! ### Expressions -/

theorem Expr.Lowers.follows (base : ByteArray) {e : Expr} {s t : Lowering} {c : Code}
    (h : e.Lowers s c t) :
    ∃ τ, c.type = some τ ∧ Follows base s t c.run e.eval (Value.Is τ) := by
  induction h with
  | literal v s =>
      refine ⟨v.type, rfl, ?_⟩
      rw [Code.ofValue, Code.run, Expr.eval]
      exact .pure ⟨rfl, v.value_hasType⟩
  | grouping _ ih => exact ih
  | @var name s slot hr =>
      refine ⟨slot.type, rfl, ?_⟩
      rw [Code.loadFrom, Code.run, Expr.eval]
      exact (Follows.read (s := s.atLine name.line) hr).atLine
  | @assign target e s t slot c d hr he hd ih =>
      obtain ⟨l, hl, hc⟩ := ih
      obtain ⟨l', hl', hw, rfl⟩ := Code.asStored_eq_ok.mp hd
      obtain rfl : l = l' := Option.some.inj (hl.symm.trans hl')
      refine ⟨slot.type, rfl, ?_⟩
      rw [Code.storeTo, Code.run, Expr.eval]
      have hr' : t.scope.resolve target.lexeme = .ok slot := by rw [he.scope_eq]; exact hr
      refine ((hc.atLine.weaken fun _ _ h => h.madeBy).convertTo hl hw).bind (Nat.le_refl _) ?_
      rintro v x ⟨v, rfl, rfl, _, hty⟩
      refine .afterRead hr' fun old _ => ?_
      exact (Follows.write hr' hty).bind (Nat.le_refl _) fun _ _ _ => .pure ⟨rfl, hty⟩
  | unary _ hp ih =>
      obtain ⟨l, hl, hc⟩ := ih
      rw [Expr.eval]
      exact hp.follows _ hc.atLine hl
  | binary _ hb hcomb ihl ihr =>
      obtain ⟨l, hl, ha⟩ := ihl
      obtain ⟨r, hr, hb'⟩ := ihr
      obtain ⟨l', r', hl', hr', h⟩ := Code.combine_eq_ok.mp hcomb
      obtain rfl : l = l' := Option.some.inj (hl.symm.trans hl')
      obtain rfl : r = r' := Option.some.inj (hr.symm.trans hr')
      rw [Expr.eval]
      exact h.follows hb.count_le ha.atLine hb' hl hr
  | logical _ hlb hb hrb ihl ihr =>
      obtain ⟨τ, hτ, ha⟩ := ihl
      obtain ⟨σ, hσ, hb'⟩ := ihr
      refine ⟨.bool, rfl, ?_⟩
      rw [Expr.eval]
      exact .logical _ _ hb.scope_eq hb.count_le (ha.atLine.asBoolean hτ hlb).2
        (hb'.asBoolean hσ hrb).2
  | cast _ hd ih =>
      obtain ⟨l, hl, hc⟩ := ih
      rw [Expr.eval]
      exact hc.atLine.castTo hl hd
  | @stepBefore op _ _ slot _ hr hone => exact ⟨slot.type, rfl, .stepBefore op hr hone⟩
  | @stepBehind op _ _ slot _ hr hone => exact ⟨slot.type, rfl, .stepBehind op hr hone⟩

/-! ### Statements -/

/-- The value `v` of code with a static type is the result `x` of a statement;
without a type both have no value. -/
def Value.Shows (type : Option Ty) (v : Value) : Option Typed → Prop
  | some x => type = some x.type ∧ v = x.value
  | none => type = none ∧ v = .unit

/-- The slots of the variables that come into force between two states of lowering
hold the default values of their types. -/
def Lowering.Awaits (s t : Lowering) (m : Machine) : Prop :=
  ∀ slot ∈ t.scope.slots, s.slotCount ≤ slot.index →
    m.slots[slot.index]? = some (.default slot.type)

/-- A block gives its variables their default values and nothing else that is in
force. -/
theorem Mirrors.reset {base : ByteArray} {s t : Lowering} {m : Machine} {d : State} {added : Frame}
    (hm : Mirrors base s m d) (ht : t.Numbered) (hst : s.Extends t)
    (hadded : t.scope = s.scope.grow added) (hsize : t.slotCount ≤ m.slots.size) :
    (Slot.resetAll added.sorted).run m = (.ok (), m.reset added.sorted) ∧
      Mirrors base s (m.reset added.sorted) d ∧ s.Awaits t (m.reset added.sorted) ∧
      m.Keeps t.slotCount (m.reset added.sorted) := by
  obtain ⟨hdistinct, hrange⟩ := hst.added ht hadded
  have hrange' : ∀ slot ∈ added.sorted, s.slotCount ≤ slot.index ∧ slot.index < t.slotCount :=
    fun slot hs => hrange slot (Frame.mem_sorted.mp hs)
  have hdistinct' : (added.sorted.map Slot.index).Nodup :=
    ((Frame.sorted_perm added).map _).nodup_iff.mpr hdistinct
  refine ⟨Machine.resetAll_run fun slot hs => ?_, hm.keep Machine.reset_sink fun i hi => ?_,
    fun slot hs hi => ?_, .reset m fun slot hs => (hrange' slot hs).2⟩
  · have := (hrange' slot hs).2
    omega
  · refine Machine.get_reset_of_ne fun slot hs => ?_
    have := (hrange' slot hs).1
    omega
  · rw [hadded] at hs
    rcases Scope.mem_slots_grow.mp hs with hold | hnew
    · have := hm.numbered.below slot hold
      omega
    · have := (hrange slot hnew).2
      exact Machine.get_reset hdistinct' (Frame.mem_sorted.mpr hnew) (by omega)

mutual

theorem Stmt.Lowers.follows {base : ByteArray} {stmt : Stmt} {s t : Lowering} {c : Code}
    {m : Machine} {d : State} : stmt.Lowers s c t → Mirrors base s m d →
      t.slotCount ≤ m.slots.size → s.Awaits t m →
      Ends base t m (Value.Shows c.type) (c.run.run m) (stmt.eval.run d)
  | .expression h, hm, hsize, _ => by
      obtain ⟨τ, hτ, hf⟩ := h.follows base
      rw [Stmt.eval]
      refine (hf.andThenRight ?_).ends hm hsize
      rintro v x ⟨rfl, _⟩
      exact ⟨_, rfl, hτ, rfl⟩
  | .print h, hm, hsize, _ => by
      obtain ⟨τ, hτ, hf⟩ := h.follows base
      rw [Stmt.eval, Code.run]
      refine (hf.bind (Nat.le_refl _) ?_).ends hm hsize
      rintro v x ⟨rfl, _⟩
      exact Follows.print.bind (Nat.le_refl _) fun _ _ _ => .pure ⟨rfl, rfl⟩
  | @Stmt.Lowers.declare type name s hn, hm, hsize, hnew => by
      have hslot : m.slots[s.slotCount]? = some (.default type) :=
        hnew (s.fresh name.lexeme type) (Scope.mem_slots_grow.mpr (.inr List.mem_cons_self))
          (Nat.le_refl _)
      obtain ⟨d', hbind, hm'⟩ := hm.bindName hn hslot
      have hrun : (Code.storeTo (s.fresh name.lexeme type)
          (.ofValue (.default type) type name.line) name.line).run.run m =
          (.ok (.default type), m.put s.slotCount (.default type)) := by
        refine Code.storeTo_run ?_ hsize
        rw [Code.ofValue, Code.run]
        rfl
      rw [Stmt.eval, hrun, Attempt.bind_of_ok hbind]
      refine .ok ⟨rfl, rfl⟩ (hm'.keep rfl fun i _ => Machine.get_put_same hslot i) ?_
      exact .put m _ (Nat.lt_succ_self s.slotCount)
  | @Stmt.Lowers.declareInit type name e s t c d hn h hd, hm, hsize, hnew => by
      obtain ⟨l, hl, hf⟩ := h.follows base
      obtain ⟨l', hl', hw, rfl⟩ := Code.asStored_eq_ok.mp hd
      obtain rfl : l = l' := Option.some.inj (hl.symm.trans hl')
      have hmem : s.fresh name.lexeme type ∈ t.scope.slots := by
        rw [h.scope_eq]
        exact Scope.mem_slots_grow.mpr (.inr List.mem_cons_self)
      have hslot : m.slots[s.slotCount]? = some (.default type) := hnew _ hmem (Nat.le_refl _)
      obtain ⟨d', hbind, hm'⟩ := hm.bindName hn hslot
      have hr : t.scope.resolve name.lexeme = .ok (s.fresh name.lexeme type) := by
        rw [h.scope_eq]
        exact Scope.resolve_grow hn
      rw [Stmt.eval, Attempt.bind_of_ok hbind, Code.storeTo, Code.run]
      have hf' := (hf.weaken fun _ _ h => h.madeBy).convertTo hl hw
      refine (hf'.bind (Nat.le_refl _) ?_).ends hm' hsize
      rintro v x ⟨v, rfl, rfl, _, hty⟩
      exact (Follows.write hr hty).bind (Nat.le_refl _) fun _ _ _ => .pure ⟨rfl, rfl⟩
  | @Stmt.Lowers.block body s t codes added h hadded, hm, hsize, _ => by
      have hpush : Mirrors base { s with scope := s.scope.push } m
          { d with frames := .empty :: d.frames } :=
        ⟨hm.numbered.congr Scope.slots_push (Nat.le_refl _),
          .cons ⟨fun _ => rfl, nofun⟩ hm.frames, hm.sink⟩
      obtain ⟨ht, hst⟩ := h.numbered hpush.numbered
      obtain ⟨hreset, hm', hawaits, hkeeps⟩ := hpush.reset ht hst hadded hsize
      have hunit : Value.unit.Shows none none := ⟨rfl, rfl⟩
      have hbody := h.follows hm' (by rw [Machine.reset_size]; exact hsize) hawaits hunit
      rw [Code.ofBlock, Code.run, Attempt.bind_of_ok hreset, Stmt.eval, inFrame,
        Attempt.bind_of_ok (Attempt.modify_run _ _)]
      rcases hbody.cases with
        ⟨v, x, m', d', hrun, heval, hshows, hm', hk⟩ | ⟨f, m', d', hrun, heval, hs⟩
      · rw [hrun, Attempt.bind_of_ok heval]
        rw [Code.lastType_none] at hshows
        refine .ok hshows ⟨hm.numbered.congr rfl hst.count, ?_, hm'.sink⟩
          (hkeeps.trans (Nat.le_refl _) hk)
        have hframes := hm'.frames
        rw [hadded, Scope.frames_push_grow] at hframes
        show List.Forall₂ _ d'.frames.tail s.scope.frames
        generalize d'.frames = frames at hframes
        cases hframes with
        | cons _ houter => exact houter
      · rw [hrun, Attempt.bind_of_error heval]
        exact .failed hs

/-- The code of statements follows them. -/
theorem Stmt.LowersAll.follows {base : ByteArray} {stmts : List Stmt} {s t : Lowering}
    {codes : List Code} {m : Machine} {d : State} {type : Option Ty} {last : Value}
    {x : Option Typed} : Stmt.LowersAll stmts s codes t → Mirrors base s m d →
      t.slotCount ≤ m.slots.size → s.Awaits t m → last.Shows type x →
      Ends base t m (Value.Shows (Code.lastType type codes))
        ((Code.runBody last codes).run m) ((Stmt.evalAll x stmts).run d)
  | .nil s, hm, _, _, hlast => by
      rw [Code.runBody, Stmt.evalAll]
      exact .ok hlast hm (.refl _ m)
  | @Stmt.LowersAll.cons stmt rest s t u c codes h hrest, hm, hsize, hnew, _ => by
      obtain ⟨ht, hst⟩ := h.numbered hm.numbered
      have htu := (hrest.numbered ht).2
      obtain ⟨added, hadded⟩ := hrest.scope_grow
      have hfirst : s.Awaits t m := fun slot hs hi =>
        hnew slot (by rw [hadded]; exact Scope.mem_slots_grow.mpr (.inl hs)) hi
      rw [Code.runBody, Stmt.evalAll, Code.lastType_cons]
      rcases (h.follows hm (Nat.le_trans htu.count hsize) hfirst).cases with
        ⟨v, x, m', d', hrun, heval, hshows, hm', hk⟩ | ⟨f, m', d', hrun, heval, hs⟩
      · rw [Attempt.bind_of_ok hrun, Attempt.bind_of_ok heval]
        -- The slots that are still awaited lie behind all that the first statement touches.
        have hothers : t.Awaits u m' := fun slot hs hi => by
          rw [hk.slots _ hi]
          exact hnew slot hs (Nat.le_trans hst.count hi)
        rcases (hrest.follows hm' (by rw [hk.size]; exact hsize) hothers hshows).cases with
          ⟨w, y, m'', d'', hrun, heval, hshows, hm'', hk'⟩ | ⟨f, m'', d'', hrun, heval, hs⟩
        · rw [hrun, heval]
          exact .ok hshows hm'' (hk.trans htu.count hk')
        · rw [hrun, heval]
          exact .failed hs
      · rw [Attempt.bind_of_error hrun, Attempt.bind_of_error heval]
        exact .failed hs

end

/-! ### Programs -/

theorem Mirrors.start {sink : Sink} (n : Nat) (h : sink.limit = none) :
    Mirrors sink.written .start (.start n sink) ⟨[.empty], .empty⟩ := by
  refine ⟨.start, .cons ⟨fun _ => rfl, nofun⟩ .nil, ?_⟩
  obtain ⟨limit, written⟩ := sink
  cases h
  simp [Machine.start]

/-- The root of a lowered program follows the statements of the program. -/
theorem lower_follows {program : List Stmt} {p : Lowered} (h : lower program = .ok p) {sink : Sink}
    (hs : sink.limit = none) :
    ∃ t, Ends sink.written t (.start p.slotCount sink) (Value.Shows p.root.type)
      (p.root.run.run (.start p.slotCount sink))
      ((Stmt.evalAll none program).run ⟨[.empty], .empty⟩) := by
  obtain ⟨codes, t, added, hl, ht, rfl⟩ := lower_eq_ok_iff.mp h
  have hm := Mirrors.start t.slotCount hs
  obtain ⟨hnum, hext⟩ := hl.numbered hm.numbered
  have hsize : t.slotCount ≤ (Machine.start t.slotCount sink).slots.size := by simp [Machine.start]
  obtain ⟨hreset, hm', hawaits, hkeeps⟩ := hm.reset hnum hext ht hsize
  have hunit : Value.unit.Shows none none := ⟨rfl, rfl⟩
  have hbody := hl.follows hm' (by rw [Machine.reset_size]; exact hsize) hawaits hunit
  refine ⟨t, ?_⟩
  rw [Code.ofBlock, Code.run, Attempt.bind_of_ok hreset]
  rcases hbody.cases with
    ⟨v, x, m', d', hrun, heval, hshows, hm', hk⟩ | ⟨f, m', d', hrun, heval, hs⟩
  · rw [hrun, heval]
    rw [Code.lastType_none] at hshows
    exact .ok hshows hm' (hkeeps.trans (Nat.le_refl _) hk)
  · rw [hrun, heval]
    exact .failed hs

/-- A program that can be lowered, run with a sink that takes everything, prints
the output of its direct evaluation and ends as that does. -/
theorem execute_eq_evaluate {program : List Stmt} {p : Lowered} (h : lower program = .ok p)
    (sink : Sink) (hs : sink.limit = none) :
    ∃ (r : Except Failure Unit) (output : ByteArray),
      evaluate program = (r.mapError .failed, output) ∧
        execute program sink = (r.mapError .running, ⟨none, sink.written ++ output⟩) := by
  obtain ⟨t, hends⟩ := lower_follows h hs
  simp only [execute, h, Lowered.run, evaluate]
  rcases hends.cases with
    ⟨v, x, m, d, hrun, heval, hshows, hm, -⟩ | ⟨f, m, d, hrun, heval, hsink⟩
  · rw [Attempt.bind_of_ok hrun, Attempt.bind_of_ok heval]
    cases x with
    | none =>
        refine ⟨.ok (), d.output, rfl, ?_⟩
        rw [hshows.1, ← hm.sink]
        rfl
    | some x =>
        obtain ⟨htype, rfl⟩ := hshows
        obtain ⟨m', d', hprint, hprint', hm', -⟩ := hm.print none x.value
        refine ⟨.ok (), d'.output, ?_, ?_⟩
        · rw [hprint']
          rfl
        · rw [htype, ← hm'.sink]
          simp only [Option.isSome_some, if_true, hprint]
  · refine ⟨.error f, d.output, ?_, ?_⟩
    · rw [Attempt.bind_of_error heval]
      rfl
    · rw [Attempt.bind_of_error hrun, ← hsink]

/-- `int x = 2; { int x = x++; print x; } x / 0;` -/
def shadowing : List Stmt :=
  let x (line : Nat) : Token := ⟨.identifier, "x", line, none⟩
  [.declare .int (x 1) (some (.literal (.int 2))),
    .block [.declare .int (x 2) (some (.step ⟨.increment, "++", 2, none⟩ (x 2) false)),
      .print (.var (x 2))],
    .expression (.binary (.var (x 3)) ⟨.slash, "/", 3, none⟩ (.literal (.int 0)))]

/-- The inner variable is in force in its own initial value, and the division of
the outer one fails on its line. -/
theorem execute_eq_evaluate_shadowing :
    ∃ p, lower shadowing = .ok p ∧ Sink.unlimited.limit = none ∧
      (evaluate shadowing).1 = .error (.failed ⟨some 3, .value .divisionByZero⟩) ∧
      ∃ (r : Except Failure Unit) (output : ByteArray),
        evaluate shadowing = (r.mapError .failed, output) ∧
          execute shadowing .unlimited =
            (r.mapError .running, ⟨none, Sink.unlimited.written ++ output⟩) :=
  ⟨_, rfl, rfl, rfl, execute_eq_evaluate rfl .unlimited rfl⟩

end SlotScript
