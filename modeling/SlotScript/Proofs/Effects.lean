import SlotScript.Proofs.FullSink

/-! # What running code can change and see

Code changes no slot but those that its stores name and its blocks declare, and it only
appends to the output (`Confined.actions`, `Blind.actions`).  What it does depends on the
slots that it names or declares, and on the sink only through the number of bytes that the
sink still takes: two sinks make a difference only where one of them refuses a line
(`Code.run_alike`).  Each of these is a property of single steps of the machine, so by
`Actions.run` it is one of every tree of code, well-typed or not.

The main statement is `Code.run_confined`.  Its last part says that an expression without
assignments and steps changes nothing at all. -/

namespace SlotScript

/-! ### Written slots -/

namespace Code

/-- The slot that a store writes. -/
def target? : Code → Option Slot
  | .store slot _ _ => some slot
  | _ => none

/-- The slots that a tree declares or writes. -/
def written (c : Code) : List Slot := c.blockSlots.flatten ++ c.collect target?

variable {R W W' : Slot → Prop} {Q : Prop} {c : Code}

theorem AllObey.mono (h : c.AllObey R W Q) (hW : ∀ slot, W slot → W' slot) :
    c.AllObey R W' Q := by
  intro d hd
  have hobeys := h d hd
  cases d with
  | store slot value note => exact hW slot hobeys
  | block slots body note => exact fun slot hslot => hW slot (hobeys slot hslot)
  | _ => exact hobeys

theorem written_subset_footprint (c : Code) : c.written ⊆ c.footprint := by
  intro slot hslot
  rcases List.mem_append.mp hslot with hblock | hstore
  · exact List.mem_append_left _ hblock
  · obtain ⟨d, hd, htarget⟩ := List.mem_filterMap.mp hstore
    have haccess : d.access? = some slot := by
      cases d with
      | store target value note => exact htarget
      | _ => cases htarget
    exact List.mem_append_right _ (mem_collect hd haccess)

theorem allObey_written (c : Code) : c.AllObey (fun _ => True) (· ∈ c.written) True := by
  intro d hd
  cases d with
  | store slot value note => exact List.mem_append_right _ (mem_collect hd rfl)
  | block slots body note =>
      exact fun slot hslot => List.mem_append_left _ (mem_blockSlots hd rfl hslot)
  | _ => trivial

end Code

/-- The attempt keeps the number of slots, and all slots outside `W` as they are. -/
def Confined (W : Nat → Prop) (α : Type) (x : Exec α) : Prop :=
  ∀ m : Machine, (x.run m).2.slots.size = m.slots.size ∧
    ∀ i, ¬ W i → (x.run m).2.slots[i]? = m.slots[i]?

namespace Confined

variable {W : Nat → Prop} {α β : Type}

theorem ofKept {x : Exec α} (h : ∀ m, (x.run m).2.slots = m.slots) : Confined W α x := by
  intro m
  rw [h m]
  exact ⟨rfl, fun _ _ => rfl⟩

theorem bind {x : Exec α} {f : α → Exec β} (hx : Confined W α x) (hf : ∀ a, Confined W β (f a)) :
    Confined W β (x >>= f) := by
  intro m
  obtain ⟨hsize, hkept⟩ := hx m
  cases h : x.run m with
  | mk r t =>
      rw [h] at hsize hkept
      cases r with
      | error e =>
          rw [Attempt.bind_of_error h]
          exact ⟨hsize, hkept⟩
      | ok a =>
          obtain ⟨hsize', hkept'⟩ := hf a t
          rw [Attempt.bind_of_ok h]
          refine ⟨hsize'.trans hsize, ?_⟩
          intro i hi
          rw [hkept' i hi]
          exact hkept i hi

theorem load (i : Nat) : Confined W Value (Machine.load i) := by
  refine ofKept fun m => ?_
  cases h : m.slots[i]? with
  | some v => rw [Machine.load_run h]
  | none => rw [Machine.load_run_of_none h]

theorem store {i : Nat} (v : Value) (hi : W i) : Confined W Unit (Machine.store i v) := by
  intro m
  by_cases hlt : i < m.slots.size
  · rw [Machine.store_run hlt]
    refine ⟨Machine.put_size, ?_⟩
    intro j hj
    have hne : i ≠ j := fun heq => hj (heq ▸ hi)
    exact Machine.get_put_of_ne hne
  · rw [Machine.store_run_of_le (by omega)]
    exact ⟨rfl, fun _ _ => rfl⟩

theorem print (line : Option Nat) (v : Value) : Confined W Unit (Machine.print line v) := by
  refine ofKept fun m => ?_
  rw [Machine.print_run]

theorem actions (W : Nat → Prop) :
    Actions (fun _ => True) (fun slot => W slot.index) True (Confined W) where
  pure _ := ofKept fun _ => rfl
  bind := bind
  value _ _ := ofKept fun _ => rfl
  load {slot} _ := load slot.index
  store := store
  print line v _ := print line v

end Confined

/-! ### Sinks -/

namespace Sink

/-- The number of bytes that the sink still takes, if it does not take everything. -/
def room (s : Sink) : Option Nat := s.limit.map (· - s.written.size)

variable {s s' : Sink} {bytes : ByteArray} {n : Nat}

theorem room_holding (s : Sink) (bytes : ByteArray) :
    (s.holding bytes).room = s.room.map (· - bytes.size) := by
  obtain ⟨limit, written⟩ := s
  cases limit with
  | none => rfl
  | some n => simp [room, holding, ByteArray.size_append, Nat.sub_sub]

/-- A write looks at the room only. -/
theorem write_eq (s : Sink) (bytes : ByteArray) :
    s.write bytes =
      (s.room.all (bytes.size ≤ ·), s.holding (s.room.elim bytes (bytes.extract 0))) := by
  obtain ⟨limit, written⟩ := s
  cases limit with
  | none => rfl
  | some n => rfl

theorem write_of_fits (h : s.room.all (bytes.size ≤ ·) = true) :
    s.write bytes = (true, s.holding bytes) := by
  rw [write_eq, h]
  cases hroom : s.room with
  | none => rfl
  | some n =>
      rw [hroom] at h
      have hle : bytes.size ≤ n := by simpa using h
      rw [Option.elim_some, extract_all hle]

end Sink

/-- The output was refused. -/
def Refused {α : Type} (r : Except Failure α) : Prop := ∃ line, r = .error ⟨line, .outputRefused⟩

/-- The two runs end in the same way, with the same slots, and write the same bytes behind
what `s` and `s'` held. -/
structure SameBehind {α : Type} (s s' : Sink) (out out' : Except Failure α × Machine) : Prop where
  result : out.1 = out'.1
  slots : out.2.slots = out'.2.slots
  sinks : ∃ more, out.2.sink = s.holding more ∧ out'.2.sink = s'.holding more

/-- From the same slots, the attempt does the same with any two sinks, unless one of them
has less room than the other and refuses a line. -/
def Blind (α : Type) (x : Exec α) : Prop :=
  ∀ (slots : Array Value) (s s' : Sink),
    SameBehind s s' (x.run ⟨slots, s⟩) (x.run ⟨slots, s'⟩) ∨
      (s.room ≠ s'.room ∧ (Refused (x.run ⟨slots, s⟩).1 ∨ Refused (x.run ⟨slots, s'⟩).1))

namespace Blind

variable {α β : Type}

theorem ofQuiet {x : Exec α} (h : Quiet x) : Blind α x := by
  intro slots s s'
  have hother := h ⟨slots, s⟩ s'
  have hsink := h.sink_eq ⟨slots, s⟩
  left
  refine ⟨?_, ?_, .empty, ?_, ?_⟩
  · rw [hother]
  · rw [hother]
  · rw [hsink, Sink.holding_empty]
  · rw [hother, Sink.holding_empty]

theorem bind {x : Exec α} {f : α → Exec β} (hx : Blind α x) (hf : ∀ a, Blind β (f a)) :
    Blind β (x >>= f) := by
  intro slots s s'
  cases h : x.run ⟨slots, s⟩ with
  | mk r t =>
      cases h' : x.run ⟨slots, s'⟩ with
      | mk r' t' =>
          have hfirst := hx slots s s'
          rw [h, h'] at hfirst
          rcases hfirst with ⟨hresult, hslots, more, hsink, hsink'⟩ | ⟨hroom, hrefused⟩
          · obtain rfl : r = r' := hresult
            cases r with
            | error e =>
                rw [Attempt.bind_of_error h, Attempt.bind_of_error h']
                exact .inl ⟨rfl, hslots, more, hsink, hsink'⟩
            | ok a =>
                obtain ⟨slots, sink⟩ := t
                obtain ⟨slots', sink'⟩ := t'
                obtain rfl : slots = slots' := hslots
                obtain rfl : sink = s.holding more := hsink
                obtain rfl : sink' = s'.holding more := hsink'
                rw [Attempt.bind_of_ok h, Attempt.bind_of_ok h']
                rcases hf a slots (s.holding more) (s'.holding more) with hsame | ⟨hroom, hrefused⟩
                · obtain ⟨hresult', hslots', further, hfurther, hfurther'⟩ := hsame
                  refine .inl ⟨hresult', hslots', more ++ further, ?_, ?_⟩
                  · rw [hfurther, Sink.holding_holding]
                  · rw [hfurther', Sink.holding_holding]
                · refine .inr ⟨?_, hrefused⟩
                  intro heq
                  apply hroom
                  rw [Sink.room_holding, Sink.room_holding, heq]
          · refine .inr ⟨hroom, ?_⟩
            rcases hrefused with ⟨line, rfl⟩ | ⟨line, rfl⟩
            · left
              rw [Attempt.bind_of_error h]
              exact ⟨line, rfl⟩
            · right
              rw [Attempt.bind_of_error h']
              exact ⟨line, rfl⟩

theorem print (line : Option Nat) (v : Value) : Blind Unit (Machine.print line v) := by
  intro slots s s'
  have hrun : ∀ sink : Sink, (Machine.print line v).run ⟨slots, sink⟩ = _ :=
    fun _ => Machine.print_run line
  rw [hrun, hrun]
  by_cases hroom : s.room = s'.room
  · left
    simp only [Sink.write_eq, hroom]
    exact ⟨rfl, rfl, _, rfl, rfl⟩
  · by_cases hfits : s.room.all ((Machine.lineOf v).size ≤ ·) = true
    · by_cases hfits' : s'.room.all ((Machine.lineOf v).size ≤ ·) = true
      · left
        rw [Sink.write_of_fits hfits, Sink.write_of_fits hfits']
        exact ⟨rfl, rfl, _, rfl, rfl⟩
      · refine .inr ⟨hroom, .inr ⟨line, ?_⟩⟩
        rw [Sink.write_eq]
        simp [hfits']
    · refine .inr ⟨hroom, .inl ⟨line, ?_⟩⟩
      rw [Sink.write_eq]
      simp [hfits]

theorem actions : Actions (fun _ => True) (fun _ => True) True Blind where
  pure a := ofQuiet (.pure a)
  bind := bind
  value line r := ofQuiet (.value line r)
  load {slot} _ := ofQuiet (.load slot.index)
  store {slot} v _ := ofQuiet (.store slot.index v)
  print line v _ := print line v

end Blind

/-! ### Code -/

namespace Code

variable {c : Code} {m m' : Machine}

theorem run_confined_slots (c : Code) (m : Machine) :
    (c.run.run m).2.slots.size = m.slots.size ∧
      ∀ i, (∀ slot ∈ c.written, slot.index ≠ i) → (c.run.run m).2.slots[i]? = m.slots[i]? := by
  let W : Nat → Prop := fun i => ∃ slot ∈ c.written, slot.index = i
  have hobeys : c.AllObey (fun _ => True) (fun slot => W slot.index) True :=
    c.allObey_written.mono fun slot hslot => ⟨slot, hslot, rfl⟩
  obtain ⟨hsize, hkept⟩ := (Confined.actions W).run hobeys m
  refine ⟨hsize, ?_⟩
  intro i hi
  apply hkept
  rintro ⟨slot, hslot, heq⟩
  exact hi slot hslot heq

theorem run_blind (c : Code) : Blind Value c.run :=
  Blind.actions.run (c.allObey_written.mono fun _ _ => trivial)

theorem run_appends (c : Code) (m : Machine) :
    ∃ more, (c.run.run m).2.sink = m.sink.holding more := by
  rcases c.run_blind m.slots m.sink m.sink with hsame | ⟨hroom, -⟩
  · obtain ⟨more, hmore, -⟩ := hsame.sinks
    exact ⟨more, hmore⟩
  · exact absurd rfl hroom

/-- The two runs end in the same way, agree on the slots of the footprint, and write the
same bytes. -/
structure RunsAlike (c : Code) (m m' : Machine) : Prop where
  result : (c.run.run m).1 = (c.run.run m').1
  slots : ∀ slot ∈ c.footprint,
    (c.run.run m).2.slots[slot.index]? = (c.run.run m').2.slots[slot.index]?
  output : ∃ more, (c.run.run m).2.sink = m.sink.holding more ∧
    (c.run.run m').2.sink = m'.sink.holding more

/-- The second machine with the slots of the first lies between the two: from the first it
differs in the sink only, and from the second outside the footprint only. -/
theorem run_alike (h : ∀ slot ∈ c.footprint, m.slots[slot.index]? = m'.slots[slot.index]?)
    (hsinks : m.sink.room = m'.sink.room ∨
      ¬ Refused (c.run.run m).1 ∧ ¬ Refused (c.run.run m').1) : c.RunsAlike m m' := by
  let S : Nat → Prop := fun i => ∃ slot ∈ c.footprint, slot.index = i
  have hstays : c.StaysIn fun slot => S slot.index := fun slot hslot => ⟨slot, hslot, rfl⟩
  have hagree : Machine.AgreeOn S ⟨m.slots, m'.sink⟩ m' := by
    refine ⟨rfl, ?_⟩
    rintro _ ⟨slot, hslot, rfl⟩
    exact h slot hslot
  obtain ⟨hresult, hleft⟩ := (Alike.steps S).run hstays.allObey _ _ hagree
  rcases c.run_blind m.slots m.sink m'.sink with hsame | ⟨hroom, hrefused⟩
  · obtain ⟨more, hmore, hmore'⟩ := hsame.sinks
    refine ⟨hsame.result.trans hresult, ?_, more, hmore, ?_⟩
    · intro slot hslot
      have hslots : (c.run.run m).2.slots = _ := hsame.slots
      rw [hslots]
      exact hleft.slots _ (hstays slot hslot)
    · rw [← hleft.sink, hmore']
  · rw [hresult] at hrefused
    rcases hsinks with heq | ⟨hnot, hnot'⟩
    · exact absurd heq hroom
    · rcases hrefused with hrefused | hrefused
      · exact absurd hrefused hnot
      · exact absurd hrefused hnot'

end Code

/-! ### Expressions that only compute -/

/-- The expression has no assignment and no step. -/
def Expr.Still : Expr → Prop
  | .literal _ | .var _ => True
  | .unary _ e | .grouping e | .cast _ e => e.Still
  | .binary left _ right | .logical left _ right => left.Still ∧ right.Still
  | .assign _ _ | .step _ _ _ => False

/-- The node, if it is one that changes the machine. -/
def Code.change? : Code → Option Code
  | .store slot value note => some (.store slot value note)
  | .print operand note => some (.print operand note)
  | .block slots body note => some (.block slots body note)
  | _ => none

theorem Code.skipsPlain_change? : SkipsPlain change? := by
  intro c hc
  cases c with
  | store slot value note => cases hc
  | print operand note => cases hc
  | block slots body note => cases hc
  | _ => rfl

theorem Expr.Lowers.change_of_still {e : Expr} {s t : Lowering} {c : Code} (h : e.Lowers s c t)
    (he : e.Still) : c.collect Code.change? = [] := by
  have hskips := Code.skipsPlain_change?
  induction h with
  | literal v s => exact Code.collect_ofValue hskips _ _ _
  | grouping _ ih => exact ih he
  | @var name s slot _ =>
      rw [Code.collect_eq]
      rfl
  | assign => exact he.elim
  | unary _ hp ih =>
      rw [Code.collect_around hskips rfl rfl, Code.collect_prepared hskips hp]
      exact ih he
  | binary _ _ hc ihl ihr =>
      rw [Code.collect_combine hskips hc, ihl he.1, ihr he.2]
      rfl
  | logical _ hl _ hr ihl ihr =>
      rw [Code.collect_pair hskips rfl rfl, Code.collect_asBoolean hskips hl,
        Code.collect_asBoolean hskips hr, ihl he.1, ihr he.2]
      rfl
  | cast _ hd ih =>
      rw [Code.collect_castTo hskips hd]
      exact ih he
  | stepBefore => exact he.elim
  | stepBehind => exact he.elim

theorem Code.allObey_of_unchanging {c : Code} (h : c.collect change? = []) :
    c.AllObey (fun _ => True) (fun _ => False) False := by
  intro d hd
  have hnone : change? d = none := List.filterMap_eq_nil_iff.mp h d hd
  cases d with
  | store slot value note => cases hnone
  | print operand note => cases hnone
  | block slots body note => cases hnone
  | _ => trivial

/-- The attempt leaves the machine as it is. -/
def Unchanging (α : Type) (x : Exec α) : Prop := ∀ m : Machine, (x.run m).2 = m

namespace Unchanging

variable {α β : Type}

theorem bind {x : Exec α} {f : α → Exec β} (hx : Unchanging α x) (hf : ∀ a, Unchanging β (f a)) :
    Unchanging β (x >>= f) := by
  intro m
  have hfirst := hx m
  cases h : x.run m with
  | mk r t =>
      rw [h] at hfirst
      obtain rfl : t = m := hfirst
      cases r with
      | error e => rw [Attempt.bind_of_error h]
      | ok a =>
          rw [Attempt.bind_of_ok h]
          exact hf a t

theorem load (i : Nat) : Unchanging Value (Machine.load i) := by
  intro m
  cases h : m.slots[i]? with
  | some v => rw [Machine.load_run h]
  | none => rw [Machine.load_run_of_none h]

theorem actions : Actions (fun _ => True) (fun _ => False) False Unchanging where
  pure _ _ := rfl
  bind := bind
  value _ _ _ := rfl
  load {slot} _ := load slot.index
  store _ h := h.elim
  print _ _ h := h.elim

end Unchanging

/-! ### The main statement -/

/-- However a run ends, it keeps the number of slots and every slot that the code neither
writes nor declares, and it only appends to the output.  Machines that agree on the slots
of the footprint, whose sinks have equal room or refuse nothing, are run alike.  Code of an
expression without assignments and steps leaves the machine as it is. -/
theorem Code.run_confined (c : Code) :
    (∀ m : Machine,
      (c.run.run m).2.slots.size = m.slots.size ∧
      (∀ i, (∀ slot ∈ c.written, slot.index ≠ i) → (c.run.run m).2.slots[i]? = m.slots[i]?) ∧
      ∃ more, (c.run.run m).2.sink = m.sink.holding more) ∧
    (∀ m m' : Machine, (∀ slot ∈ c.footprint, m.slots[slot.index]? = m'.slots[slot.index]?) →
      (m.sink.room = m'.sink.room ∨
        ¬ Refused (c.run.run m).1 ∧ ¬ Refused (c.run.run m').1) → c.RunsAlike m m') ∧
    ∀ (e : Expr) (s t : Lowering), e.Still → e.lower.run s = (.ok c, t) →
      ∀ m : Machine, (c.run.run m).2 = m := by
  refine ⟨?_, fun m m' => run_alike, ?_⟩
  · intro m
    obtain ⟨hsize, hkept⟩ := c.run_confined_slots m
    exact ⟨hsize, hkept, c.run_appends m⟩
  · intro e s t he hlower
    have hunchanging := (Expr.lower_eq_ok.mp hlower).change_of_still he
    exact Unchanging.actions.run (allObey_of_unchanging hunchanging)

/-- `{ int y; x = x + 1; print x; }`, with `x` in slot 0 and `y` in slot 2. -/
def raising : Code :=
  let x : Slot := ⟨0, .int, "x"⟩
  .ofBlock [⟨2, .int, "y"⟩]
    [.storeTo x (.binary (.arithmetic .add) (.loadFrom x 1) (.ofValue (.int 1) .int 1)
      ⟨some .int, 1⟩) 1, .print (.loadFrom x 1) ⟨none, 1⟩] 1

/-- `-x` -/
def negating : Expr := .unary ⟨.minus, "-", 1, none⟩ (.var ⟨.identifier, "x", 1, none⟩)

theorem raising_footprint : ∀ slot ∈ raising.footprint, slot.index = 0 ∨ slot.index = 2 := by
  simp [raising, Code.footprint, Code.blockSlots, Code.accesses, Code.collect_eq, Code.parts,
    Code.slots?, Code.access?, Code.ofBlock, Code.storeTo, Code.loadFrom, Code.ofValue]

/-- Slot 1 is not seen and not changed, and the line fits into both sinks. -/
theorem Code.run_confined_raising :
    raising.RunsAlike ⟨#[.int 1, .bool true, .int 0], .upTo 2⟩
        ⟨#[.int 1, .null, .int 0], ⟨some 3, "z".toByteArray⟩⟩ ∧
      (raising.run.run ⟨#[.int 1, .bool true, .int 0], .upTo 2⟩).2.slots[1]? = some (.bool true) ∧
      ∃ c t, negating.lower.run ⟨⟨[⟨0, .int, "x"⟩], []⟩, 1, 1⟩ = (.ok c, t) ∧
        ∀ m : Machine, (c.run.run m).2 = m := by
  obtain ⟨hconfined, halike, -⟩ := raising.run_confined
  have hlowers : ∃ c t, negating.lower.run ⟨⟨[⟨0, .int, "x"⟩], []⟩, 1, 1⟩ = (.ok c, t) :=
    ⟨_, _, rfl⟩
  obtain ⟨c, t, hlower⟩ := hlowers
  refine ⟨?_, ?_, c, t, hlower, c.run_confined.2.2 negating _ t trivial hlower⟩
  · apply halike
    · intro slot hslot
      rcases raising_footprint slot hslot with hindex | hindex
      · rw [hindex]
        rfl
      · rw [hindex]
        rfl
    · left
      rfl
  · obtain ⟨-, hkept, -⟩ := hconfined ⟨#[.int 1, .bool true, .int 0], .upTo 2⟩
    rw [hkept 1]
    · rfl
    · intro slot hslot
      have hindex := raising_footprint slot (raising.written_subset_footprint hslot)
      omega

end SlotScript
