import SlotScript.Proofs.CodeTypes
import SlotScript.Proofs.Moments
import SlotScript.Proofs.Storage

/-! # Lowered programs run soundly

A run is watched moment by moment (`Code.moments`), together with the slots that
have been initialised up to then.  `SoundFrom` says what holds at every moment:

* each slot that has been initialised holds a value of its type;
* code that has ended with a value has one of its static type;
* a slot that is read has been initialised before.

The proof goes through rules for watched runs (`Traced.Ensures`), one for each
step a run can take.  `Code.WellTyped.ensures` assembles them along the structure
of well-typed code, and `lower_sound` applies the result to lowered programs: the
only failures left are those of a division of whole numbers, of a cast that the
program writes down, and of the sink. -/

namespace SlotScript

open Outcome Traced Code.Context

/-- The slot holds a value of its type. -/
def Machine.Holds (m : Machine) (slot : Slot) : Prop :=
  ∃ v, m.slots[slot.index]? = some v ∧ v.HasType slot.type

namespace Moment

/-- What holds at a moment when the slots `ready` have been initialised. -/
structure Sound (ready : List Slot) (x : Moment) : Prop where
  holds : ∀ slot ∈ ready, x.machine.Holds slot
  fits : ∀ c v m, x = .finished c (.ok v) m → v.Fits c.type
  reads : ∀ slot note r m, x = .finished (.load slot note) r m → slot ∈ ready

/-- Every moment is sound, when the slots `ready` have been initialised before
the first. -/
def SoundFrom (ready : List Slot) : List Moment → Prop
  | [] => True
  | x :: rest => x.Sound (x.opens ++ ready) ∧ SoundFrom (x.opens ++ ready) rest

theorem soundFrom_append {ready : List Slot} {ms ms' : List Moment} :
    SoundFrom ready (ms ++ ms') ↔ SoundFrom ready ms ∧ SoundFrom (readyAfter ready ms) ms' := by
  induction ms generalizing ready with
  | nil => simp [SoundFrom]
  | cons x ms ih => simp [SoundFrom, ih, and_assoc]

end Moment

open Moment

/-! ### Where failures come from -/

/-- The failures that code can be the cause of: a division of whole numbers, a
cast of an object or into `char` that the program writes down, or a print that
the sink refuses. -/
inductive Code.Fails (casts : List Token) : Code → Failure → Prop
  | division {o : Arithmetic} {left right : Code} {t : Ty} {n : Nat} {f : ValueFault} :
      o.Divides → t.isIntegral → f.IsDivision →
      Fails casts (.binary (.arithmetic o) left right ⟨some t, n⟩) ⟨some n, .value f⟩
  | unboxing {operand : Code} {t : Ty} {n : Nat} {tag : Value.Tag} :
      operand.type = some .object → CastAt casts t n →
      Fails casts (.convert operand ⟨some t, n⟩) ⟨some n, .value (.invalidCast tag t)⟩
  | characterCode {operand : Code} {n : Nat} {code : Int} :
      CastAt casts .char n →
      Fails casts (.convert operand ⟨some .char, n⟩) ⟨some n, .value (.invalidCharacterCode code)⟩
  | output {operand : Code} {note : Code.Note} :
      Fails casts (.print operand note) ⟨some note.line, .outputRefused⟩

/-- The faults of code that reads a slot it does not have, or applies an operation
to values it is not defined for. -/
def RunFault.IsMisuse : RunFault → Prop
  | .slotOutOfRange _ | .value (.undefinedBinary _ _ _) | .value (.undefinedUnary _ _)
  | .value (.invalidArguments _ _) => True
  | .value .divisionByZero | .value .overflow | .value (.invalidCast _ _)
  | .value (.invalidCharacterCode _) | .outputRefused => False

theorem Code.Fails.not_misuse {casts : List Token} {c : Code} {f : Failure} (h : c.Fails casts f) :
    ¬ f.fault.IsMisuse := by
  cases h with
  | division _ _ hf =>
      rcases hf with rfl | rfl
      · exact id
      · exact id
  | unboxing _ _ => exact id
  | characterCode _ => exact id
  | output => exact id

/-! ### Watched runs -/

/-- The machine fits a layout, and all of `ready` has been initialised. -/
structure Machine.Ready (layout : List Ty) (ready : List Slot) (m : Machine) : Prop where
  size : m.slots.size = layout.length
  laid : Laid layout ready
  holds : ∀ slot ∈ ready, m.Holds slot

/-- How a watched run ends: all its moments are sound, so is the machine it
leaves, a value satisfies `Q`, and a failure satisfies `E` or has its cause among
the code that was run. -/
structure Traced.Ends {α : Type} (Γ : Code.Context) (ready : List Slot) (Q : α → Prop)
    (E : Failure → Prop) (out : List Moment × (Except Failure α × Machine)) : Prop where
  moments : SoundFrom ready out.1
  machine : out.2.2.Ready Γ.layout (readyAfter ready out.1)
  result : Yields out.2.1 Q fun f =>
    E f ∨ ∃ c m, Moment.finished c (.error f) m ∈ out.1 ∧ c.Fails Γ.casts f

/-- Started when at least the slots of the context have been initialised, the run
ends well. -/
structure Traced.Ensures {α : Type} (Γ : Code.Context) (x : Traced α) (Q : α → Prop)
    (E : Failure → Prop) : Prop where
  ends : ∀ {ready : List Slot} {m : Machine}, Γ.ready ⊆ ready → m.Ready Γ.layout ready →
    Ends Γ ready Q E (x m)

namespace Traced.Ensures

variable {α β : Type} {Γ : Code.Context} {Q Q' : α → Prop} {R : β → Prop} {E : Failure → Prop}

theorem weaken {x : Traced α} (hx : Ensures Γ x Q E) (h : ∀ a, Q a → Q' a) : Ensures Γ x Q' E := by
  refine ⟨fun hr hm => ?_⟩
  obtain ⟨hms, hm', hres⟩ := hx.ends hr hm
  exact ⟨hms, hm', hres.mono h fun _ he => he⟩

theorem pure {a : α} (h : Q a) : Ensures Γ (pure a) Q E := ⟨fun _ hm => ⟨trivial, hm, h⟩⟩

theorem bind {x : Traced α} {f : α → Traced β} (hx : Ensures Γ x Q E)
    (hf : ∀ a, Q a → Ensures Γ (f a) R E) : Ensures Γ (x >>= f) R E := by
  refine ⟨fun {ready m} hr hm => ?_⟩
  show Ends Γ ready R E (andThen x f m)
  have h := hx.ends hr hm
  unfold andThen
  rcases hxm : x m with ⟨ms, r, m'⟩
  rw [hxm] at h
  cases r with
  | error e => exact ⟨h.moments, h.machine, h.result⟩
  | ok a =>
      have h' := (hf a h.result).ends (fun slot hs => subset_readyAfter ready ms (hr hs)) h.machine
      refine ⟨soundFrom_append.mpr ⟨h.moments, h'.moments⟩, ?_, h'.result.mono (fun _ hb => hb) ?_⟩
      · rw [readyAfter_append]
        exact h'.machine
      · rintro e (he | ⟨c, k, hc, hf⟩)
        · exact .inl he
        · exact .inr ⟨c, k, List.mem_append_right _ hc, hf⟩

/-- The run of a piece of code.  What it may fail with of its own are the failures
that it is the cause of. -/
theorem record {c : Code} {x : Traced Value} (hx : Ensures Γ x (·.Fits c.type) (c.Fails Γ.casts))
    (hload : ∀ slot note, c = .load slot note → slot ∈ Γ.ready) :
    Ensures Γ (record c x) (·.Fits c.type) E := by
  refine ⟨fun {ready m} hr hm => ?_⟩
  have h := hx.ends hr hm
  unfold Traced.record
  refine ⟨soundFrom_append.mpr ⟨h.moments, ⟨h.machine.holds, ?_, ?_⟩, trivial⟩, ?_, ?_⟩
  · intro c' v m' heq
    injection heq with hc hv _
    have hres := h.result
    rw [hv] at hres
    rw [← hc]
    exact hres
  · intro slot note r m' heq
    injection heq with hc _ _
    exact subset_readyAfter ready _ (hr (hload slot note hc))
  · rw [readyAfter_append]
    exact h.machine
  · -- The failure is the code's own, or one that its parts caused before it ended.
    have hres := h.result
    cases hx : (x m).2.1 with
    | ok v =>
        rw [hx] at hres
        exact hres
    | error f =>
        rw [hx] at hres
        refine .inr ?_
        rcases hres with hf | ⟨c', k, hc, hf⟩
        · exact ⟨c, _, List.mem_append_right _ List.mem_cons_self, hf⟩
        · exact ⟨c', k, List.mem_append_left _ hc, hf⟩

theorem valueAt {r : Except ValueFault α} {n : Nat} {F : ValueFault → Prop} (h : Yields r Q F)
    (hE : ∀ f, F f → E ⟨some n, .value f⟩) : Ensures Γ (ofExec (valueAt n r)) Q E := by
  refine ⟨fun _ hm => ⟨trivial, hm, ?_⟩⟩
  cases r with
  | ok a => exact h
  | error f => exact .inl (hE f h)

theorem valueAt_ok {r : Except ValueFault α} {n : Nat} (h : ∃ a, r = .ok a ∧ Q a) :
    Ensures Γ (ofExec (SlotScript.valueAt n r)) Q E := by
  obtain ⟨a, rfl, ha⟩ := h
  exact .pure ha

theorem load {slot : Slot} (hs : slot ∈ Γ.ready) :
    Ensures Γ (ofExec (Machine.load slot.index)) (·.HasType slot.type) E := by
  refine ⟨fun {ready m} hr hm => ?_⟩
  obtain ⟨v, hv, ht⟩ := hm.holds slot (hr hs)
  unfold ofExec
  rw [Machine.load_run hv]
  exact ⟨trivial, hm, ht⟩

end Traced.Ensures

namespace Machine.Ready

variable {layout : List Ty} {ready : List Slot} {m : Machine} {slot : Slot} {v : Value}

theorem index_lt (hm : m.Ready layout ready) (hs : layout[slot.index]? = some slot.type) :
    slot.index < m.slots.size := by
  rw [hm.size]
  exact (List.getElem?_eq_some_iff.mp hs).1

/-- Writing a value of its type into a slot of the layout keeps every slot that
holds a value of its type so. -/
theorem put (hm : m.Ready layout ready) (hs : layout[slot.index]? = some slot.type)
    (hv : v.HasType slot.type) : (m.put slot.index v).Ready layout (slot :: ready) := by
  have hlaid : Laid layout (slot :: ready) := by
    intro other hother
    rcases List.mem_cons.mp hother with rfl | hother
    · exact hs
    · exact hm.laid other hother
  refine ⟨by rw [put_size]; exact hm.size, hlaid, fun other hother => ?_⟩
  by_cases hi : slot.index = other.index
  · -- Two slots with one index have one type, so the new value fits both.
    have htype := hlaid other hother
    rw [← hi, hs] at htype
    rw [Machine.Holds, ← hi, ← Option.some.inj htype]
    exact ⟨v, get_put (hm.index_lt hs), hv⟩
  · rcases List.mem_cons.mp hother with rfl | hother
    · exact absurd rfl hi
    · obtain ⟨w, hw, ht⟩ := hm.holds other hother
      exact ⟨w, by rw [get_put_of_ne hi]; exact hw, ht⟩

theorem anti {ready' : List Slot} (hm : m.Ready layout ready') (h : ready ⊆ ready') :
    m.Ready layout ready :=
  ⟨hm.size, fun slot hs => hm.laid slot (h hs), fun slot hs => hm.holds slot (h hs)⟩

/-- Resetting slots of the layout initialises them. -/
theorem reset {slots : List Slot} (hm : m.Ready layout ready) (hs : Laid layout slots) :
    (m.reset slots).Ready layout (slots ++ ready) := by
  induction slots generalizing m ready with
  | nil => exact hm
  | cons slot rest ih =>
      have hput := hm.put (hs slot List.mem_cons_self) (Value.default_hasType slot.type)
      refine (ih hput fun other ho => hs other (List.mem_cons_of_mem _ ho)).anti fun other ho => ?_
      simp only [List.cons_append, List.mem_cons, List.mem_append] at ho ⊢
      tauto

end Machine.Ready

namespace Traced.Ensures

variable {α : Type} {Γ : Code.Context} {Q : α → Prop} {E : Failure → Prop}

theorem store {slot : Slot} {v : Value} (hs : slot ∈ Γ.ready) (hv : v.HasType slot.type) :
    Ensures Γ (ofExec (Machine.store slot.index v)) (fun _ => True) E := by
  refine ⟨fun {ready m} hr hm => ?_⟩
  have hslot := hm.laid slot (hr hs)
  unfold ofExec
  rw [Machine.store_run (hm.index_lt hslot)]
  exact ⟨trivial, (hm.put hslot hv).anti (List.subset_cons_self slot ready), trivial⟩

/-- Printing leaves the slots alone. -/
theorem print {line : Option Nat} {v : Value} (hE : E ⟨line, .outputRefused⟩) :
    Ensures Γ (ofExec (Machine.print line v)) (fun _ => True) E := by
  refine ⟨fun {ready m} hr hm => ?_⟩
  unfold ofExec Attempt.run Machine.print
  dsimp only
  split
  · exact ⟨trivial, ⟨hm.size, hm.laid, hm.holds⟩, trivial⟩
  · exact ⟨trivial, ⟨hm.size, hm.laid, hm.holds⟩, .inl hE⟩

/-- The inside of a block may rely on the slots that the block initialises. -/
theorem opening {slots : List Slot} {x : Traced α} (hs : Laid Γ.layout slots)
    (hx : Ensures (Γ.opening slots) x Q E) :
    Ensures Γ (do ofExec (Slot.resetAll slots); openSlots slots; x) Q E := by
  refine ⟨fun {ready m} hr hm => ?_⟩
  have hm' := hm.reset hs
  have hsub : slots ++ Γ.ready ⊆ slots ++ ready := fun slot h => by
    rcases List.mem_append.mp h with h | h
    · exact List.mem_append_left _ h
    · exact List.mem_append_right _ (hr h)
  have h := hx.ends hsub hm'
  have hout : (do ofExec (Slot.resetAll slots); openSlots slots; x : Traced α) m =
      (.opened slots (m.reset slots) :: (x (m.reset slots)).1, (x (m.reset slots)).2) := by
    show andThen (ofExec (Slot.resetAll slots)) (fun _ => andThen (openSlots slots) fun _ => x) m = _
    simp only [andThen, ofExec,
      Machine.resetAll_run fun slot hslot => hm.index_lt (hs slot hslot)]
    rfl
  rw [hout]
  refine ⟨⟨⟨hm'.holds, by rintro _ _ _ ⟨⟩, by rintro _ _ _ _ ⟨⟩⟩, h.moments⟩, h.machine,
    h.result.mono (fun _ hq => hq) ?_⟩
  rintro f (hf | ⟨c, k, hc, hf⟩)
  · exact .inl hf
  · exact .inr ⟨c, k, List.mem_cons_of_mem _ hc, hf⟩

end Traced.Ensures

/-! ### Well-typed code -/

theorem Value.fits_iff {v : Value} {o : Option Ty} {t : Ty} (ho : o = some t) :
    v.Fits o ↔ v.HasType t := by
  rw [ho]
  exact Iff.rfl

mutual

/-- Well-typed code runs soundly, and the only failures of its run are those that
some of the code is the cause of. -/
theorem Code.WellTyped.ensures {E : Failure → Prop} : ∀ {c : Code} {Γ : Code.Context},
    c.WellTyped Γ → c.traced.Ensures Γ (·.Fits c.type) E
  | .constant v note, Γ, ⟨t, ht, hv⟩ => by
      rw [Code.traced]
      exact .record (.pure ((Value.fits_iff ht).mpr hv)) (by rintro _ _ ⟨⟩)
  | .load slot note, Γ, ⟨hs, ht⟩ => by
      rw [Code.traced]
      refine .record (.weaken (.load hs) fun v hv => (Value.fits_iff ht).mpr hv) ?_
      rintro _ _ ⟨⟩
      exact hs
  | .store slot value note, Γ, ⟨hs, hv, hvt, ht⟩ => by
      rw [Code.traced]
      refine .record (.bind hv.ensures fun v hfit => ?_) (by rintro _ _ ⟨⟩)
      have hty := (Value.fits_iff hvt).mp hfit
      exact .bind (.store hs hty) fun _ _ => .pure ((Value.fits_iff ht).mpr hty)
  | .convert operand ⟨some t, line⟩, Γ, ⟨ho, s, _, hs, rfl, hcast⟩ => by
      rw [Code.traced]
      refine .record (.bind ho.ensures fun v hfit => ?_) (by rintro _ _ ⟨⟩)
      have hv := (Value.fits_iff hs).mp hfit
      rcases hcast with ⟨hsn, htn⟩ | ⟨hst, hat⟩
      · exact .valueAt_ok (Value.cast_hasType_of_numeric hsn htn hv)
      · refine .valueAt (Value.cast_yields hst hv) ?_
        rintro f (⟨rfl, rfl⟩ | ⟨rfl, code, rfl⟩)
        · exact .unboxing hs hat
        · exact .characterCode hat
  | .binary op left right ⟨_, line⟩, Γ, ⟨hl, hr, t, hlt, hrt, hop, rfl⟩ => by
      rw [Code.traced]
      refine .record (.bind hl.ensures fun a ha => .bind hr.ensures fun b hb => ?_)
        (by rintro _ _ ⟨⟩)
      have ha := (Value.fits_iff hlt).mp ha
      have hb := (Value.fits_iff hrt).mp hb
      refine .valueAt (BinaryOp.onValues_yields hop ha hb) ?_
      rintro f ⟨⟨o, rfl, ho⟩, hi, hf⟩
      exact .division ho hi hf
  | .logical .and left right note, Γ, ⟨hl, hr, hlt, hrt, ht⟩ => by
      rw [Code.traced]
      refine .record (.bind hl.ensures fun a ha => ?_) (by rintro _ _ ⟨⟩)
      split
      · exact .weaken hr.ensures fun v hv => (Value.fits_iff ht).mpr ((Value.fits_iff hrt).mp hv)
      · exact .pure ((Value.fits_iff ht).mpr (.bool false))
  | .logical .or left right note, Γ, ⟨hl, hr, hlt, hrt, ht⟩ => by
      rw [Code.traced]
      refine .record (.bind hl.ensures fun a ha => ?_) (by rintro _ _ ⟨⟩)
      split
      · exact .pure ((Value.fits_iff ht).mpr (.bool true))
      · exact .weaken hr.ensures fun v hv => (Value.fits_iff ht).mpr ((Value.fits_iff hrt).mp hv)
  | .unary op operand note, Γ, ⟨ho, t, hot, hop, ht⟩ => by
      rw [Code.traced]
      refine .record (.bind ho.ensures fun v hv => ?_) (by rintro _ _ ⟨⟩)
      obtain ⟨w, hw, hwt⟩ := UnaryOp.onValue_hasType hop ((Value.fits_iff hot).mp hv)
      exact .valueAt_ok ⟨w, hw, (Value.fits_iff ht).mpr hwt⟩
  | .condition test positive negative note, Γ, ⟨hc, hp, hn, hct, hpt, hnt⟩ => by
      rw [Code.traced]
      refine .record (.bind hc.ensures fun b hb => ?_) (by rintro _ _ ⟨⟩)
      split
      · exact .weaken hp.ensures fun v hv => by rw [hpt] at hv; exact hv
      · exact .weaken hn.ensures fun v hv => by rw [hnt] at hv; exact hv
  | .call builtin arguments note, Γ, ⟨ha, ts, t, hts, htakes, ht⟩ => by
      rw [Code.traced]
      refine .record (.bind (ha.ensuresArguments hts) fun vs hvs => ?_) (by rintro _ _ ⟨⟩)
      obtain ⟨w, hw, hwt⟩ := Builtin.onValues_hasType htakes hvs
      exact .valueAt_ok ⟨w, hw, (Value.fits_iff ht).mpr hwt⟩
  | .print operand ⟨_, line⟩, Γ, ⟨ho, rfl⟩ => by
      rw [Code.traced]
      refine .record (.bind ho.ensures fun v _ => ?_) (by rintro _ _ ⟨⟩)
      exact .bind (.print .output) fun _ _ => .pure rfl
  | .block slots body ⟨_, line⟩, Γ, ⟨hs, hb, rfl⟩ => by
      rw [Code.traced]
      have hunit : Value.unit.Fits none := rfl
      refine .record (.opening hs (.weaken (hb.ensuresBody hunit) fun v hv => ?_))
        (by rintro _ _ ⟨⟩)
      rw [Code.lastType_none] at hv
      exact hv

/-- Well-typed arguments give values of their types. -/
theorem Code.AllWellTyped.ensuresArguments {E : Failure → Prop} :
    ∀ {cs : List Code} {Γ : Code.Context} {ts : List Ty}, Code.AllWellTyped Γ cs →
      cs.map Code.type = ts.map some →
      (Code.tracedArguments cs).Ensures Γ (List.Forall₂ Value.HasType · ts) E
  | [], Γ, [], _, _ => by
      rw [Code.tracedArguments]
      exact .pure .nil
  | c :: cs, Γ, t :: ts, ⟨hc, hcs⟩, hts => by
      rw [List.map_cons, List.map_cons, List.cons.injEq] at hts
      rw [Code.tracedArguments]
      refine .bind hc.ensures fun v hv => .bind (hcs.ensuresArguments hts.2) fun vs hvs => ?_
      exact .pure (.cons ((Value.fits_iff hts.1).mp hv) hvs)

/-- A well-typed sequence gives a value of the type of its last part, or `last` if
it has none. -/
theorem Code.AllWellTyped.ensuresBody {E : Failure → Prop} :
    ∀ {cs : List Code} {Γ : Code.Context} {last : Value} {type : Option Ty},
      Code.AllWellTyped Γ cs → last.Fits type →
      (Code.tracedBody last cs).Ensures Γ (·.Fits (Code.lastType type cs)) E
  | [], Γ, last, type, _, hlast => by
      rw [Code.tracedBody]
      exact .pure hlast
  | c :: cs, Γ, last, type, ⟨hc, hcs⟩, _ => by
      rw [Code.tracedBody]
      refine .bind hc.ensures fun v hv => .weaken (hcs.ensuresBody hv) fun w hw => ?_
      rw [Code.lastType_cons]
      exact hw

end

/-! ### Lowered programs -/

/-- A machine whose slots hold nothing yet fits every layout of its size. -/
theorem Machine.Ready.start {layout : List Ty} {n : Nat} {sink : Sink} (h : layout.length = n) :
    (Machine.start n sink).Ready layout [] :=
  ⟨by simp [Machine.start, h], nofun, nofun⟩

theorem Machine.print_error {line : Option Nat} {v : Value} {m m' : Machine} {f : Failure}
    (h : (Machine.print line v).run m = (.error f, m')) : f = ⟨line, .outputRefused⟩ := by
  unfold Machine.print Attempt.run at h
  dsimp only at h
  split at h
  · cases h
  · cases h
    rfl

/-- A program that fails has failed in its code, unless the sink refused its final
value. -/
theorem Lowered.run_error {p : Lowered} {sink s : Sink} {f : Failure}
    (h : p.run sink = (.error f, s)) :
    f = ⟨none, .outputRefused⟩ ∨
      ∃ m, p.root.run.run (.start p.slotCount sink) = (.error f, m) := by
  simp only [Lowered.run, Prod.mk.injEq] at h
  obtain ⟨hf, -⟩ := h
  rcases hrun : p.root.run.run (.start p.slotCount sink) with ⟨r, m⟩
  cases r with
  | error e =>
      rw [Attempt.bind_of_error hrun] at hf
      cases hf
      exact .inr ⟨m, rfl⟩
  | ok v =>
      rw [Attempt.bind_of_ok hrun] at hf
      split at hf
      · rcases hprint : (Machine.print none v).run m with ⟨r, m'⟩
        rw [hprint] at hf
        cases hf
        exact .inl (Machine.print_error hprint)
      · cases hf

/-- The run of a lowered program is sound at every moment, and its failures have
a cause in the program; the printing of the final value adds only the refusal of
the sink. -/
theorem lower_sound {program : List Stmt} {p : Lowered} (h : lower program = .ok p) (sink : Sink) :
    SoundFrom [] (p.root.moments (.start p.slotCount sink)) ∧
      (∀ f m, p.root.run.run (.start p.slotCount sink) = (.error f, m) →
        ¬ f.fault.IsMisuse ∧
          ∃ node k, .finished node (.error f) k ∈ p.root.moments (.start p.slotCount sink) ∧
            node.Fails (Stmt.allCastTokens program) f) ∧
      ∀ f s, p.run sink = (.error f, s) →
        f = ⟨none, .outputRefused⟩ ∨
          ∃ m, p.root.run.run (.start p.slotCount sink) = (.error f, m) := by
  obtain ⟨layout, hlen, hcode⟩ := lower_wellTyped h
  have hm : (Machine.start p.slotCount sink).Ready layout [] := .start hlen
  have hends := (hcode.ensures (E := fun _ => False)).ends (fun _ h => h) hm
  refine ⟨hends.moments, fun f m hf => ?_, fun f s hf => Lowered.run_error hf⟩
  have hres := hends.result
  rw [Code.traced_run, hf] at hres
  obtain ⟨node, k, hk, hnode⟩ := hres.resolve_left id
  exact ⟨hnode.not_misuse, node, k, hk, hnode⟩

/-- `object o; print (int) o;` -/
def unboxing : List Stmt :=
  [.declare .object ⟨.identifier, "o", 1, none⟩ none,
    .print (.cast ⟨.typeCast, "int", 2, none⟩ (.var ⟨.identifier, "o", 2, none⟩))]

/-- The program reads a slot that is initialised and stops at its cast. -/
theorem lower_sound_unboxing :
    ∃ p m, lower unboxing = .ok p ∧
      SoundFrom [] (p.root.moments (.start p.slotCount .unlimited)) ∧
      p.root.run.run (.start p.slotCount .unlimited) =
        (.error ⟨some 2, .value (.invalidCast .null .int)⟩, m) ∧
      ∃ node k, .finished node (.error ⟨some 2, .value (.invalidCast .null .int)⟩) k ∈
          p.root.moments (.start p.slotCount .unlimited) ∧
        node.Fails (Stmt.allCastTokens unboxing) ⟨some 2, .value (.invalidCast .null .int)⟩ := by
  have hsort : Frame.sorted [⟨0, .object, "o"⟩] = [⟨0, .object, "o"⟩] := by simp [Frame.sorted]
  have hlower : lower unboxing = .ok ⟨.ofBlock (Frame.sorted [⟨0, .object, "o"⟩])
      [.storeTo ⟨0, .object, "o"⟩ (.ofValue .null .object 1) 1,
        .print (.convert (.loadFrom ⟨0, .object, "o"⟩ 2) ⟨some .int, 2⟩) ⟨none, 2⟩] 1, 1⟩ := rfl
  rw [hsort] at hlower
  obtain ⟨hsound, hfail, -⟩ := lower_sound hlower .unlimited
  exact ⟨_, _, hlower, hsound, rfl, (hfail _ _ rfl).2⟩

end SlotScript
