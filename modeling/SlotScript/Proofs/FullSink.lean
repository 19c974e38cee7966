import SlotScript.Program
import SlotScript.Proofs.Continuation
import SlotScript.Proofs.Moments

/-! # Sinks that are full

A run whose sink takes `n` bytes is compared with the run of the same code whose sink
takes everything.  While the free run has written at most `n` bytes, the two do the
same.  The first `print` that takes the free run beyond them fails in the other run, and
nothing happens there any more, so what it has written are the first `n` bytes of the
free output.

`Traced.Truncates` says this of a piece of a run, together with the moments from which
the line of the failing `print` is read off.  Steps that leave the sink alone satisfy it
(`Truncates.ofQuiet`), and so do two pieces in sequence (`Truncates.bind`), hence all
code does (`Code.traced_truncates`).  The main statement is `fullSink_truncates`. -/

namespace SlotScript

/-! ### Writing with a limit -/

namespace Sink

/-- The sink with a limit of `n` bytes in all. -/
def limited (s : Sink) (n : Nat) : Sink := { s with limit := some n }

/-- The sink with more bytes behind those that it holds. -/
def holding (s : Sink) (bytes : ByteArray) : Sink := { s with written := s.written ++ bytes }

variable {s : Sink} {bytes : ByteArray} {n : Nat}

theorem holding_empty (s : Sink) : s.holding .empty = s := by
  simp [holding]

theorem holding_holding (s : Sink) (bytes more : ByteArray) :
    (s.holding bytes).holding more = s.holding (bytes ++ more) := by
  simp [holding, ByteArray.append_assoc]

theorem extract_all (h : bytes.size ≤ n) : bytes.extract 0 n = bytes := by
  have hmax : max n bytes.size = n := Nat.max_eq_left h
  rw [← hmax, ByteArray.extract_zero_max_size]

/-- More bytes at the end do not change the first `n`. -/
theorem extract_behind (h : n ≤ bytes.size) (more : ByteArray) :
    (bytes ++ more).extract 0 n = bytes.extract 0 n := by
  have hnone : n - bytes.size = 0 := by omega
  rw [ByteArray.extract_append, hnone, Nat.zero_sub, ByteArray.extract_same,
    ByteArray.append_empty]

theorem write_free (h : s.limit = none) (bytes : ByteArray) :
    s.write bytes = (true, s.holding bytes) := by
  obtain ⟨limit, written⟩ := s
  simp only at h
  simp [write, holding, h]

theorem write_fits (h : s.written.size + bytes.size ≤ n) :
    (s.limited n).write bytes = (true, (s.holding bytes).limited n) := by
  have hroom : bytes.size ≤ n - s.written.size := by omega
  simp [write, limited, holding, hroom, extract_all hroom]

/-- A write that does not fit leaves the first `n` bytes. -/
theorem write_full (hstart : s.written.size ≤ n) (h : n < s.written.size + bytes.size) :
    (s.limited n).write bytes = (false, ⟨some n, (s.written ++ bytes).extract 0 n⟩) := by
  have hroom : ¬ bytes.size ≤ n - s.written.size := by omega
  have hcut : (s.written ++ bytes).extract 0 n =
      s.written ++ bytes.extract 0 (n - s.written.size) := by
    rw [ByteArray.extract_append, extract_all hstart, Nat.zero_sub]
  simp [write, limited, hroom, hcut]

end Sink

namespace Machine

/-- The machine with a limit of `n` bytes for its sink. -/
def limited (m : Machine) (n : Nat) : Machine := { m with sink := m.sink.limited n }

/-- The machine after it has printed a value. -/
def printed (m : Machine) (v : Value) : Machine := { m with sink := m.sink.holding (lineOf v) }

/-- The number of bytes written. -/
def output (m : Machine) : Nat := m.sink.written.size

variable {m : Machine} {n : Nat} {v : Value} (line : Option Nat)

theorem output_printed : (m.printed v).output = m.output + (lineOf v).size := ByteArray.size_append

theorem print_free (h : m.sink.limit = none) (v : Value) :
    (print line v).run m = (.ok (), m.printed v) := by
  rw [print_run, Sink.write_free h]
  rfl

theorem print_fits (h : (m.printed v).output ≤ n) :
    (print line v).run (m.limited n) = (.ok (), (m.printed v).limited n) := by
  rw [output_printed] at h
  have hwrite : (m.limited n).sink.write (lineOf v) = _ := Sink.write_fits h
  rw [print_run, hwrite]
  rfl

theorem print_full (hstart : m.output ≤ n) (h : n < (m.printed v).output) :
    (print line v).run (m.limited n) =
      (.error ⟨line, .outputRefused⟩,
        { m with sink := ⟨some n, (m.printed v).sink.written.extract 0 n⟩ }) := by
  rw [output_printed] at h
  have hwrite : (m.limited n).sink.write (lineOf v) = _ := Sink.write_full hstart h
  rw [print_run, hwrite]
  rfl

end Machine

/-! ### Steps that leave the sink alone -/

/-- The attempt does not look at the sink and leaves it as it is. -/
def Quiet {α : Type} (x : Exec α) : Prop :=
  ∀ (m : Machine) (sink : Sink),
    x.run { m with sink } = ((x.run m).1, { (x.run m).2 with sink })

namespace Quiet

variable {α β : Type}

theorem sink_eq {x : Exec α} (h : Quiet x) (m : Machine) : (x.run m).2.sink = m.sink := by
  have hsame := h m m.sink
  exact congrArg (fun out => out.2.sink) hsame

theorem pure (a : α) : Quiet (Pure.pure a : Exec α) := fun _ _ => rfl

theorem value (line : Nat) (r : Except ValueFault α) : Quiet (valueAt line r) := fun _ _ => rfl

theorem load (i : Nat) : Quiet (Machine.load i) := by
  intro m sink
  cases h : m.slots[i]? with
  | some v =>
      rw [Machine.load_run h]
      exact Machine.load_run h
  | none =>
      rw [Machine.load_run_of_none h]
      exact Machine.load_run_of_none h

theorem store (i : Nat) (v : Value) : Quiet (Machine.store i v) := by
  intro m sink
  by_cases h : i < m.slots.size
  · rw [Machine.store_run h]
    exact Machine.store_run h
  · have hle : m.slots.size ≤ i := by omega
    rw [Machine.store_run_of_le hle]
    exact Machine.store_run_of_le hle

theorem bind {x : Exec α} {f : α → Exec β} (hx : Quiet x) (hf : ∀ a, Quiet (f a)) :
    Quiet (x >>= f) := by
  intro m sink
  have hfirst := hx m sink
  cases h : x.run m with
  | mk r t =>
      rw [h] at hfirst
      cases r with
      | ok a =>
          rw [Attempt.bind_of_ok hfirst, Attempt.bind_of_ok h]
          exact hf a t sink
      | error e =>
          rw [Attempt.bind_of_error hfirst, Attempt.bind_of_error h]

theorem resetAll (slots : List Slot) : Quiet (Slot.resetAll slots) := by
  induction slots with
  | nil => exact pure ()
  | cons slot rest ih =>
      rw [Slot.resetAll]
      exact (store _ _).bind fun _ => ih

end Quiet

/-! ### Runs that are cut off -/

/-- The first moment with more than `n` bytes written is the end of a `print` on this
line. -/
def Moment.PrintBeyond (n : Nat) (ms : List Moment) (line : Nat) : Prop :=
  ∃ before operand note m after,
    ms = before ++ .finished (.print operand note) (.ok .unit) m :: after ∧
      (∀ x ∈ before, x.machine.output ≤ n) ∧ n < m.output ∧ note.line = line

namespace Moment.PrintBeyond

variable {n line : Nat} {ms : List Moment}

theorem before (h : PrintBeyond n ms line) (after : List Moment) :
    PrintBeyond n (ms ++ after) line := by
  obtain ⟨first, operand, note, m, behind, rfl, hfirst, hm, hline⟩ := h
  exact ⟨first, operand, note, m, behind ++ after, by simp, hfirst, hm, hline⟩

theorem behind (h : PrintBeyond n ms line) {earlier : List Moment}
    (hearlier : ∀ x ∈ earlier, x.machine.output ≤ n) : PrintBeyond n (earlier ++ ms) line := by
  obtain ⟨first, operand, note, m, later, rfl, hfirst, hm, hline⟩ := h
  refine ⟨earlier ++ first, operand, note, m, later, by simp, ?_, hm, hline⟩
  exact List.forall_mem_append.mpr ⟨hearlier, hfirst⟩

end Moment.PrintBeyond

namespace Traced

variable {α β : Type}

/-- The second run is the first, cut off behind `n` bytes.  If the first has written no
more, the second ends in the same way.  Else it has failed at the `print` that does not
fit, with the first `n` bytes written. -/
inductive Cut (n : Nat) :
    List Moment × Except Failure α × Machine → List Moment × Except Failure α × Machine → Prop
  | fits {ms ms' : List Moment} {r : Except Failure α} {t : Machine} :
      t.output ≤ n → (∀ x ∈ ms, x.machine.output ≤ n) → Cut n (ms, r, t) (ms', r, t.limited n)
  | full {ms ms' : List Moment} {r : Except Failure α} {t t' : Machine} {line : Nat} :
      n < t.output → Moment.PrintBeyond n ms line →
      t'.sink.written = t.sink.written.extract 0 n →
      Cut n (ms, r, t) (ms', .error ⟨some line, .outputRefused⟩, t')

/-- From a machine with a free sink, the run only appends to the sink, and with room for
`n` bytes it is cut off behind them. -/
structure Truncates (x : Traced α) : Prop where
  grows : ∀ m : Machine, m.sink.limit = none → ∃ more, (x m).2.2.sink = m.sink.holding more
  cut : ∀ (m : Machine) (n : Nat), m.sink.limit = none → m.output ≤ n →
    Cut n (x m) (x (m.limited n))

theorem bind_of_ok {x : Traced α} {m t : Machine} {ms : List Moment} {a : α}
    (h : x m = (ms, .ok a, t)) (f : α → Traced β) :
    (x >>= f) m = (ms ++ (f a t).1, (f a t).2) := by
  show andThen x f m = _
  simp only [andThen, h]

theorem bind_of_error {x : Traced α} {m t : Machine} {ms : List Moment} {e : Failure}
    (h : x m = (ms, .error e, t)) (f : α → Traced β) : (x >>= f) m = (ms, .error e, t) := by
  show andThen x f m = _
  simp only [andThen, h]

theorem record_of_eq {x : Traced Value} {m t : Machine} {ms : List Moment}
    {r : Except Failure Value} (h : x m = (ms, r, t)) (c : Code) :
    record c x m = (ms ++ [.finished c r t], r, t) := by
  simp only [record, h]

namespace Truncates

theorem free {x : Traced α} (h : Truncates x) {m : Machine} (hm : m.sink.limit = none) :
    (x m).2.2.sink.limit = none := by
  obtain ⟨more, hmore⟩ := h.grows m hm
  rw [hmore]
  exact hm

theorem ofQuiet {x : Exec α} (h : Quiet x) : Truncates (ofExec x) where
  grows := by
    intro m _
    have hsink : (ofExec x m).2.2.sink = m.sink := h.sink_eq m
    exact ⟨.empty, by rw [hsink, Sink.holding_empty]⟩
  cut := by
    intro m n _ hstart
    have hsink := h.sink_eq m
    have hrun : x.run (m.limited n) = ((x.run m).1, (x.run m).2.limited n) := by
      rw [Machine.limited, Machine.limited, hsink]
      exact h m (m.sink.limited n)
    have hend : (x.run m).2.output ≤ n := by
      unfold Machine.output at hstart ⊢
      rw [hsink]
      exact hstart
    have hcut : Cut n ([], (x.run m).1, (x.run m).2) ([], (x.run m).1, (x.run m).2.limited n) :=
      .fits hend (fun _ hy => absurd hy List.not_mem_nil)
    rw [← hrun] at hcut
    exact hcut

theorem pure (a : α) : Truncates (Pure.pure a : Traced α) := ofQuiet (.pure a)

theorem openSlots (slots : List Slot) : Truncates (Traced.openSlots slots) where
  grows := fun m _ => ⟨.empty, m.sink.holding_empty.symm⟩
  cut := by
    intro m n _ hstart
    exact .fits hstart (List.forall_mem_singleton.mpr hstart)

/-- A piece that is cut off is not followed by another.  One that fits is, and the
machines before the other differ in the limit only. -/
theorem bind {x : Traced α} {f : α → Traced β} (hx : Truncates x) (hf : ∀ a, Truncates (f a)) :
    Truncates (x >>= f) where
  grows := by
    intro m hm
    have hfree := hx.free hm
    obtain ⟨more, hmore⟩ := hx.grows m hm
    cases h : x m with
    | mk ms out =>
        obtain ⟨r, t⟩ := out
        rw [h] at hfree hmore
        cases r with
        | error e =>
            rw [bind_of_error h]
            exact ⟨more, hmore⟩
        | ok a =>
            rw [bind_of_ok h]
            obtain ⟨further, hfurther⟩ := (hf a).grows t hfree
            refine ⟨more ++ further, ?_⟩
            rw [hfurther, hmore, Sink.holding_holding]
  cut := by
    intro m n hm hstart
    have hfree := hx.free hm
    have hfirst := hx.cut m n hm hstart
    generalize h : x m = out at hfree hfirst
    generalize h' : x (m.limited n) = out' at hfirst
    cases hfirst with
    | @fits ms ms' r t hend hms =>
        cases r with
        | error e =>
            rw [bind_of_error h, bind_of_error h']
            exact .fits hend hms
        | ok a =>
            rw [bind_of_ok h, bind_of_ok h']
            have hnext := (hf a).cut t n hfree hend
            generalize f a t = rest at hnext
            generalize f a (t.limited n) = rest' at hnext
            cases hnext with
            | fits hend' hms' =>
                exact .fits hend' (List.forall_mem_append.mpr ⟨hms, hms'⟩)
            | full hlt hline hwritten => exact .full hlt (hline.behind hms) hwritten
    | @full ms ms' r t t' line hlt hline hwritten =>
        rw [bind_of_error h']
        cases r with
        | error e =>
            rw [bind_of_error h]
            exact .full hlt hline hwritten
        | ok a =>
            -- The free run goes on, but what it adds comes behind the first `n` bytes.
            rw [bind_of_ok h]
            obtain ⟨more, hmore⟩ := (hf a).grows t hfree
            have hn : n ≤ t.sink.written.size := Nat.le_of_lt hlt
            refine .full ?_ (hline.before _) ?_
            · unfold Machine.output at hlt ⊢
              rw [hmore, Sink.holding, ByteArray.size_append]
              exact Nat.lt_of_lt_of_le hlt (Nat.le_add_right _ _)
            · rw [hmore, Sink.holding, Sink.extract_behind hn]
              exact hwritten

theorem record {x : Traced Value} (h : Truncates x) (c : Code) : Truncates (Traced.record c x) where
  grows := h.grows
  cut := by
    intro m n hm hstart
    have hinner := h.cut m n hm hstart
    generalize hx : x m = out at hinner
    generalize hx' : x (m.limited n) = out' at hinner
    cases hinner with
    | fits hend hms =>
        rw [record_of_eq hx, record_of_eq hx']
        exact .fits hend (List.forall_mem_append.mpr ⟨hms, List.forall_mem_singleton.mpr hend⟩)
    | full hlt hline hwritten =>
        rw [record_of_eq hx, record_of_eq hx']
        exact .full hlt (hline.before _) hwritten

end Truncates

end Traced

/-! ### Code -/

namespace Code

open Traced

section print

variable {operand : Code} {note : Note} {m t u : Machine} {ms : List Moment} {v : Value}
  {e : Failure}

theorem print_of_error (h : operand.traced m = (ms, .error e, t)) :
    (print operand note).traced m =
      (ms ++ [.finished (.print operand note) (.error e) t], .error e, t) := by
  rw [traced]
  exact record_of_eq (bind_of_error h _) _

theorem print_of_ok (h : operand.traced m = (ms, .ok v, t))
    (hp : (Machine.print (some note.line) v).run t = (.ok (), u)) :
    (print operand note).traced m =
      (ms ++ [.finished (.print operand note) (.ok .unit) u], .ok .unit, u) := by
  have hstep : ofExec (Machine.print (some note.line) v) t = ([], .ok (), u) := by
    simp only [ofExec, hp]
  rw [traced]
  apply record_of_eq
  rw [bind_of_ok h, bind_of_ok hstep]
  simp [Pure.pure, ofExec, Attempt.run]

theorem print_of_refusal (h : operand.traced m = (ms, .ok v, t))
    (hp : (Machine.print (some note.line) v).run t = (.error e, u)) :
    (print operand note).traced m =
      (ms ++ [.finished (.print operand note) (.error e) u], .error e, u) := by
  have hstep : ofExec (Machine.print (some note.line) v) t = ([], .error e, u) := by
    simp only [ofExec, hp]
  rw [traced]
  apply record_of_eq
  rw [bind_of_ok h, bind_of_error hstep, List.append_nil]

end print

/-- A `print` that does not fit is where a run is cut off. -/
theorem print_truncates {operand : Code} (h : Truncates operand.traced) (note : Note) :
    Truncates (print operand note).traced where
  grows := by
    intro m hm
    have hfree := h.free hm
    obtain ⟨more, hmore⟩ := h.grows m hm
    cases hrun : operand.traced m with
    | mk ms out =>
        obtain ⟨r, t⟩ := out
        rw [hrun] at hfree hmore
        cases r with
        | error e =>
            rw [print_of_error hrun]
            exact ⟨more, hmore⟩
        | ok v =>
            have hmore : t.sink = m.sink.holding more := hmore
            rw [print_of_ok hrun (Machine.print_free _ hfree v)]
            refine ⟨more ++ Machine.lineOf v, ?_⟩
            rw [Machine.printed, hmore, Sink.holding_holding]
  cut := by
    intro m n hm hstart
    have hfree := h.free hm
    have hoperand := h.cut m n hm hstart
    generalize hrun : operand.traced m = out at hfree hoperand
    generalize hrun' : operand.traced (m.limited n) = out' at hoperand
    cases hoperand with
    | @fits ms ms' r t hend hms =>
        cases r with
        | error e =>
            rw [print_of_error hrun, print_of_error hrun']
            exact .fits hend (List.forall_mem_append.mpr ⟨hms, List.forall_mem_singleton.mpr hend⟩)
        | ok v =>
            rw [print_of_ok hrun (Machine.print_free _ hfree v)]
            by_cases hroom : (t.printed v).output ≤ n
            · rw [print_of_ok hrun' (Machine.print_fits _ hroom)]
              exact .fits hroom
                (List.forall_mem_append.mpr ⟨hms, List.forall_mem_singleton.mpr hroom⟩)
            · have hlt : n < (t.printed v).output := by omega
              rw [print_of_refusal hrun' (Machine.print_full _ hend hlt)]
              exact .full hlt ⟨ms, operand, note, _, [], rfl, hms, hlt, rfl⟩ rfl
    | @full ms ms' r t t' line hlt hline hwritten =>
        rw [print_of_error hrun']
        cases r with
        | error e =>
            rw [print_of_error hrun]
            exact .full hlt (hline.before _) hwritten
        | ok v =>
            rw [print_of_ok hrun (Machine.print_free _ hfree v)]
            have hn : n ≤ t.sink.written.size := Nat.le_of_lt hlt
            have hlonger : n < (t.printed v).output := by
              rw [Machine.output_printed]
              omega
            refine .full hlonger (hline.before _) ?_
            rw [hwritten]
            exact (Sink.extract_behind hn _).symm

mutual

theorem traced_truncates : ∀ c : Code, Truncates c.traced
  | .constant v note => by
      rw [traced]
      exact (Truncates.pure v).record _
  | .load slot note => by
      rw [traced]
      exact (Truncates.ofQuiet (.load slot.index)).record _
  | .store slot value note => by
      rw [traced]
      refine (value.traced_truncates.bind fun v => ?_).record _
      exact (Truncates.ofQuiet (.store slot.index v)).bind fun _ => .pure v
  | .convert operand note => by
      rw [traced]
      refine (operand.traced_truncates.bind fun v => ?_).record _
      split
      · exact .ofQuiet (.value _ _)
      · exact .pure v
  | .binary op left right note => by
      rw [traced]
      refine (left.traced_truncates.bind fun l => ?_).record _
      exact right.traced_truncates.bind fun r => .ofQuiet (.value _ _)
  | .logical .and left right note => by
      rw [traced]
      refine (left.traced_truncates.bind fun l => ?_).record _
      split
      · exact right.traced_truncates
      · exact .pure _
  | .logical .or left right note => by
      rw [traced]
      refine (left.traced_truncates.bind fun l => ?_).record _
      split
      · exact .pure _
      · exact right.traced_truncates
  | .unary op operand note => by
      rw [traced]
      exact (operand.traced_truncates.bind fun v => .ofQuiet (.value _ _)).record _
  | .condition test positive negative note => by
      rw [traced]
      refine (test.traced_truncates.bind fun b => ?_).record _
      split
      · exact positive.traced_truncates
      · exact negative.traced_truncates
  | .call builtin arguments note => by
      rw [traced]
      refine ((tracedArguments_truncates arguments).bind fun vs => ?_).record _
      exact .ofQuiet (.value _ _)
  | .print operand note => print_truncates operand.traced_truncates note
  | .block slots body note => by
      rw [traced]
      refine ((Truncates.ofQuiet (.resetAll slots)).bind fun _ => ?_).record _
      exact (Truncates.openSlots slots).bind fun _ => tracedBody_truncates .unit body

theorem tracedArguments_truncates : ∀ cs : List Code, Truncates (tracedArguments cs)
  | [] => by
      rw [tracedArguments]
      exact .pure []
  | c :: rest => by
      rw [tracedArguments]
      refine c.traced_truncates.bind fun v => ?_
      exact (tracedArguments_truncates rest).bind fun vs => .pure _

theorem tracedBody_truncates : ∀ (last : Value) (cs : List Code), Truncates (tracedBody last cs)
  | last, [] => by
      rw [tracedBody]
      exact .pure last
  | _, c :: rest => by
      rw [tracedBody]
      exact c.traced_truncates.bind fun v => tracedBody_truncates v rest

end

end Code

/-! ### Programs -/

namespace Lowered

/-- The first `print` that takes the free run of the program beyond `n` bytes is on this
line. -/
def PrintsBeyond (p : Lowered) (n line : Nat) : Prop :=
  Moment.PrintBeyond n (p.root.moments (.start p.slotCount .unlimited)) line

variable (p : Lowered) {n : Nat}

theorem invoke_cut (n : Nat) :
    Traced.Cut n (p.root.moments (.start p.slotCount .unlimited), p.invoke .unlimited)
      (p.root.moments (.start p.slotCount (.upTo n)), p.invoke (.upTo n)) := by
  have hcut := p.root.traced_truncates.cut (.start p.slotCount .unlimited) n rfl (Nat.zero_le n)
  have hfree : p.root.traced (.start p.slotCount .unlimited) =
      (p.root.moments (.start p.slotCount .unlimited), p.invoke .unlimited) :=
    Prod.ext rfl (p.root.traced_run _)
  have hheld : p.root.traced ((Machine.start p.slotCount .unlimited).limited n) =
      (p.root.moments (.start p.slotCount (.upTo n)), p.invoke (.upTo n)) :=
    Prod.ext rfl (p.root.traced_run _)
  rw [hfree, hheld] at hcut
  exact hcut

theorem invoke_fits (h : (p.invoke .unlimited).2.output ≤ n) :
    p.invoke (.upTo n) = ((p.invoke .unlimited).1, (p.invoke .unlimited).2.limited n) := by
  have hcut := p.invoke_cut n
  generalize p.invoke .unlimited = free at h hcut
  generalize p.invoke (.upTo n) = held at hcut
  cases hcut with
  | fits _ _ => rfl
  | full hlt _ _ => exact absurd h (Nat.not_le_of_lt hlt)

theorem invoke_full (h : n < (p.invoke .unlimited).2.output) :
    ∃ line, p.PrintsBeyond n line ∧
      (p.invoke (.upTo n)).1 = .error ⟨some line, .outputRefused⟩ ∧
      (p.invoke (.upTo n)).2.sink.written =
        (p.invoke .unlimited).2.sink.written.extract 0 n := by
  have hcut := p.invoke_cut n
  unfold PrintsBeyond
  generalize p.invoke .unlimited = free at h hcut
  generalize p.invoke (.upTo n) = held at hcut
  cases hcut with
  | fits hle _ => exact absurd h (Nat.not_lt_of_le hle)
  | full _ hline hwritten => exact ⟨_, hline, rfl, hwritten⟩

theorem invoke_free : (p.invoke .unlimited).2.sink.limit = none := by
  have hfree := p.root.traced_truncates.free (m := .start p.slotCount .unlimited) rfl
  rw [p.root.traced_run] at hfree
  exact hfree

variable {p} {sink : Sink} {m : Machine} {v : Value} {e : Failure}

theorem run_of_error (h : p.invoke sink = (.error e, m)) : p.run sink = (.error e, m.sink) := by
  have hroot : p.root.run.run (.start p.slotCount sink) = (.error e, m) := h
  simp only [Lowered.run, Attempt.bind_of_error hroot]

/-- The value of a program is printed on a line of its own, if it has one. -/
theorem run_of_ok (h : p.invoke sink = (.ok v, m)) :
    p.run sink =
      if p.root.type.isSome then
        (((Machine.print none v).run m).1, ((Machine.print none v).run m).2.sink)
      else (.ok (), m.sink) := by
  have hroot : p.root.run.run (.start p.slotCount sink) = (.ok v, m) := h
  simp only [Lowered.run, Attempt.bind_of_ok hroot]
  split
  · rfl
  · rfl

theorem run_holding : ∃ more, (p.run .unlimited).2 = (p.invoke .unlimited).2.sink.holding more := by
  have hfree := p.invoke_free
  cases h : p.invoke .unlimited with
  | mk r t =>
      rw [h] at hfree
      cases r with
      | error e => exact ⟨.empty, by rw [run_of_error h, Sink.holding_empty]⟩
      | ok v =>
          rw [run_of_ok h, Machine.print_free none hfree v]
          split
          · exact ⟨Machine.lineOf v, rfl⟩
          · exact ⟨.empty, t.sink.holding_empty.symm⟩

theorem run_fits (h : (p.run .unlimited).2.written.size ≤ n) :
    p.run (.upTo n) = ((p.run .unlimited).1, (p.run .unlimited).2.limited n) := by
  have hfree := p.invoke_free
  obtain ⟨more, hmore⟩ := p.run_holding
  have hle : (p.invoke .unlimited).2.output ≤ n := by
    rw [hmore, Sink.holding, ByteArray.size_append] at h
    unfold Machine.output
    omega
  have hheld := p.invoke_fits hle
  cases hrun : p.invoke .unlimited with
  | mk r t =>
      rw [hrun] at hfree hheld
      cases r with
      | error e =>
          rw [run_of_error hrun, run_of_error hheld]
          rfl
      | ok v =>
          rw [run_of_ok hrun, Machine.print_free none hfree v] at h ⊢
          rw [run_of_ok hheld]
          by_cases hv : p.root.type.isSome = true
          · rw [if_pos hv] at h ⊢
            rw [if_pos hv, Machine.print_fits none h]
            rfl
          · rw [if_neg hv, if_neg hv]
            rfl

/-- The line that does not fit is one that the program prints, or the value at its end. -/
theorem run_full (h : n < (p.run .unlimited).2.written.size) :
    (p.run (.upTo n)).2.written = (p.run .unlimited).2.written.extract 0 n ∧
      ∃ line, (p.run (.upTo n)).1 = .error ⟨line, .outputRefused⟩ ∧
        ((p.invoke .unlimited).2.output ≤ n → line = none) ∧
        (n < (p.invoke .unlimited).2.output → ∃ k, line = some k ∧ p.PrintsBeyond n k) := by
  by_cases hle : (p.invoke .unlimited).2.output ≤ n
  · have hfree := p.invoke_free
    have hheld := p.invoke_fits hle
    cases hrun : p.invoke .unlimited with
    | mk r t =>
        rw [hrun] at hfree hheld hle
        have hend : t.output ≤ n := hle
        have hnot : ¬ n < t.output := by omega
        cases r with
        | error e =>
            rw [run_of_error hrun] at h
            exact absurd h hnot
        | ok v =>
            rw [run_of_ok hrun, Machine.print_free none hfree v] at h ⊢
            rw [run_of_ok hheld]
            by_cases hv : p.root.type.isSome = true
            · rw [if_pos hv] at h ⊢
              rw [if_pos hv, Machine.print_full none hend h]
              exact ⟨rfl, none, rfl, fun _ => rfl, fun hlt => absurd hlt hnot⟩
            · rw [if_neg hv] at h
              exact absurd h hnot
  · have hlt : n < (p.invoke .unlimited).2.output := by omega
    obtain ⟨line, hline, hresult, hwritten⟩ := p.invoke_full hlt
    obtain ⟨more, hmore⟩ := p.run_holding
    cases hheld : p.invoke (.upTo n) with
    | mk r t =>
        rw [hheld] at hresult hwritten
        have hresult : r = .error ⟨some line, .outputRefused⟩ := hresult
        rw [hresult] at hheld
        rw [run_of_error hheld, hmore]
        refine ⟨?_, some line, rfl, fun h' => absurd h' hle, fun _ => ⟨line, rfl, hline⟩⟩
        rw [hwritten, Sink.holding, Sink.extract_behind (Nat.le_of_lt hlt)]

/-- Running the code of a program with room for `n` bytes, compared with a free sink. -/
structure CutAt (p : Lowered) (n : Nat) : Prop where
  /-- If all of the output fits, the result, the slots and the output are the same. -/
  fits : (p.invoke .unlimited).2.sink.written.size ≤ n →
    (p.invoke (.upTo n)).1 = (p.invoke .unlimited).1 ∧
      (p.invoke (.upTo n)).2.slots = (p.invoke .unlimited).2.slots ∧
      (p.invoke (.upTo n)).2.sink.written = (p.invoke .unlimited).2.sink.written
  /-- Else the first `print` that does not fit fails, with the first `n` bytes written. -/
  full : n < (p.invoke .unlimited).2.sink.written.size →
    ∃ failure line, (p.invoke (.upTo n)).1 = .error failure ∧
      failure.fault.message = "Failed write output: sink full" ∧
      failure.line = some line ∧ p.PrintsBeyond n line ∧
      (p.invoke (.upTo n)).2.sink.written = (p.invoke .unlimited).2.sink.written.extract 0 n

end Lowered

/-- Executing a program with room for `n` bytes, compared with a free sink.  The value at
the end counts as output. -/
structure ExecutesCutAt (program : List Stmt) (n : Nat) : Prop where
  fits : (execute program .unlimited).2.written.size ≤ n →
    (execute program (.upTo n)).1 = (execute program .unlimited).1 ∧
      (execute program (.upTo n)).2.written = (execute program .unlimited).2.written
  /-- The failure has no line if it is the value at the end that does not fit. -/
  full : n < (execute program .unlimited).2.written.size →
    ∃ p failure, lower program = .ok p ∧
      (execute program (.upTo n)).1 = .error (.running failure) ∧
      failure.fault.message = "Failed write output: sink full" ∧
      ((p.invoke .unlimited).2.sink.written.size ≤ n → failure.line = none) ∧
      (n < (p.invoke .unlimited).2.sink.written.size →
        ∃ line, failure.line = some line ∧ p.PrintsBeyond n line) ∧
      (execute program (.upTo n)).2.written = (execute program .unlimited).2.written.extract 0 n

section execute

variable {program : List Stmt} {n : Nat}

theorem execute_of_error {e : LowerError} (h : lower program = .error e) (sink : Sink) :
    execute program sink = (.error (.lowering e), sink) := by
  simp only [execute, h]

theorem execute_of_ok {p : Lowered} (h : lower program = .ok p) (sink : Sink) :
    execute program sink = ((p.run sink).1.mapError .running, (p.run sink).2) := by
  simp only [execute, h]

theorem executesCutAt_of_error {e : LowerError} (h : lower program = .error e) :
    ExecutesCutAt program n where
  fits := by
    intro _
    rw [execute_of_error h, execute_of_error h]
    exact ⟨rfl, rfl⟩
  full := by
    intro hfull
    rw [execute_of_error h] at hfull
    exact absurd hfull (Nat.not_lt_zero n)

theorem executesCutAt_of_ok {p : Lowered} (h : lower program = .ok p) :
    ExecutesCutAt program n where
  fits := by
    intro hfits
    rw [execute_of_ok h] at hfits
    rw [execute_of_ok h, execute_of_ok h, p.run_fits hfits]
    exact ⟨rfl, rfl⟩
  full := by
    intro hfull
    rw [execute_of_ok h] at hfull
    obtain ⟨hwritten, line, hresult, hlast, hprint⟩ := p.run_full hfull
    rw [execute_of_ok h, execute_of_ok h, hresult]
    exact ⟨p, ⟨line, .outputRefused⟩, h, rfl, rfl, hlast, hprint, hwritten⟩

end execute

/-- A full sink only truncates: whatever code is run, and whatever program is executed, all
that a limit of `n` bytes does is to stop it at the first line that does not fit. -/
theorem fullSink_truncates (n : Nat) :
    (∀ p : Lowered, p.CutAt n) ∧ ∀ program : List Stmt, ExecutesCutAt program n := by
  constructor
  · intro p
    constructor
    · intro hfits
      rw [p.invoke_fits hfits]
      exact ⟨rfl, rfl, rfl⟩
    · intro hfull
      obtain ⟨line, hline, hresult, hwritten⟩ := p.invoke_full hfull
      exact ⟨_, line, hresult, rfl, rfl, hline, hwritten⟩
  · intro program
    cases h : lower program with
    | error e => exact executesCutAt_of_error h
    | ok p => exact executesCutAt_of_ok h

end SlotScript
