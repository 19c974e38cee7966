import SlotScript.Proofs.Nodes
import SlotScript.Proofs.Storage

/-! # The slots that code touches

A tree of code touches the slots that its blocks declare and those that its loads and
stores name.  A run of the tree is made of single steps of the machine on these slots,
so what is true of each step, and of two steps in sequence if it is true of each, is
true of the whole run (`Actions.run`).

Two properties are proved in this way.  Machines that agree on the touched slots, and
have the same sink, give the same result and agree afterwards (`Alike.steps`).  And a
run only appends to what its sink holds (`Appends.steps`). -/

namespace SlotScript

/-! ### Footprints -/

namespace Code

variable {S : Slot → Prop} {c d : Code}

/-- The slots that a tree declares, reads or writes. -/
def footprint (c : Code) : List Slot := c.blockSlots.flatten ++ c.accesses

/-- The tree touches only slots in `S`. -/
def StaysIn (S : Slot → Prop) (c : Code) : Prop := ∀ slot ∈ c.footprint, S slot

/-- What has the slots of code that stays in `S` stays in `S`. -/
theorem StaysIn.of_collect (hc : c.StaysIn S)
    (h : ∀ {β : Type} {f : Code → Option β}, SkipsPlain f → d.collect f = c.collect f) :
    d.StaysIn S := by
  have hblocks : d.blockSlots = c.blockSlots := h skipsPlain_slots?
  have haccesses : d.accesses = c.accesses := h skipsPlain_access?
  intro slot hslot
  apply hc
  rw [footprint, hblocks, haccesses] at hslot
  exact hslot

theorem StaysIn.of_pair {e : Code} (hc : c.StaysIn S) (hd : d.StaysIn S)
    (h : ∀ {β : Type} {f : Code → Option β}, SkipsPlain f →
      e.collect f = c.collect f ++ d.collect f) : e.StaysIn S := by
  have hblocks : e.blockSlots = c.blockSlots ++ d.blockSlots := h skipsPlain_slots?
  have haccesses : e.accesses = c.accesses ++ d.accesses := h skipsPlain_access?
  intro slot hslot
  simp only [footprint, hblocks, haccesses, List.flatten_append, List.mem_append] at hslot
  rcases hslot with (hslot | hslot) | (hslot | hslot)
  · exact hc slot (List.mem_append_left _ hslot)
  · exact hd slot (List.mem_append_left _ hslot)
  · exact hc slot (List.mem_append_right _ hslot)
  · exact hd slot (List.mem_append_right _ hslot)

theorem staysIn_ofValue (v : Value) (t : Ty) (n : Nat) : (ofValue v t n).StaysIn S := by
  intro slot hslot
  simp [footprint] at hslot

theorem staysIn_loadFrom {slot : Slot} (h : S slot) (n : Nat) : (loadFrom slot n).StaysIn S := by
  intro other hother
  simp only [footprint, blockSlots_loadFrom, accesses_loadFrom, List.flatten_nil,
    List.nil_append, List.mem_singleton] at hother
  rw [hother]
  exact h

theorem StaysIn.storeTo (hc : c.StaysIn S) {slot : Slot} (h : S slot) (n : Nat) :
    (storeTo slot c n).StaysIn S := by
  intro other hother
  simp only [footprint, blockSlots_storeTo, accesses_storeTo, List.mem_append,
    List.mem_cons] at hother
  rcases hother with hin | rfl | hin
  · exact hc other (List.mem_append_left _ hin)
  · exact h
  · exact hc other (List.mem_append_right _ hin)

theorem StaysIn.print (hc : c.StaysIn S) (note : Note) : (print c note).StaysIn S := by
  intro slot hslot
  apply hc
  rw [footprint, blockSlots_print, accesses_print] at hslot
  exact hslot

theorem staysIn_stepSlot {slot : Slot} (h : S slot) (op : Token) (one : Value) :
    (stepSlot slot op one).StaysIn S := by
  intro other hother
  simp only [footprint, blockSlots_stepSlot, accesses_stepSlot, List.flatten_nil,
    List.nil_append, List.mem_cons, List.not_mem_nil, or_false, or_self] at hother
  rw [hother]
  exact h

theorem staysIn_ofBlock {slots : List Slot} {body : List Code} (hslots : ∀ slot ∈ slots, S slot)
    (hbody : ∀ c ∈ body, c.StaysIn S) (n : Nat) : (ofBlock slots body n).StaysIn S := by
  intro slot hslot
  simp only [footprint, blockSlots_ofBlock, accesses_ofBlock, List.flatten_cons,
    List.mem_append, List.mem_flatten, List.mem_flatMap] at hslot
  rcases hslot with (hown | ⟨inner, ⟨c, hc, hinner⟩, hin⟩) | ⟨c, hc, hin⟩
  · exact hslots slot hown
  · exact hbody c hc slot (List.mem_append_left _ (List.mem_flatten.mpr ⟨inner, hinner, hin⟩))
  · exact hbody c hc slot (List.mem_append_right _ hin)

/-! ### What a tree does -/

variable {R W : Slot → Prop} {Q : Prop}

/-- The node reads only slots in `R`, declares and writes only slots in `W`, and prints only
if `Q` is true. -/
def Obeys (R W : Slot → Prop) (Q : Prop) : Code → Prop
  | .load slot _ => R slot
  | .store slot _ _ => W slot
  | .print _ _ => Q
  | .block slots _ _ => ∀ slot ∈ slots, W slot
  | _ => True

/-- All nodes of the tree do. -/
def AllObey (R W : Slot → Prop) (Q : Prop) (c : Code) : Prop := ∀ d ∈ c.nodes, d.Obeys R W Q

theorem AllObey.root (h : c.AllObey R W Q) : c.Obeys R W Q := by
  apply h
  rw [nodes_eq]
  exact List.mem_cons_self

theorem AllObey.part (h : c.AllObey R W Q) (hd : d ∈ c.parts) : d.AllObey R W Q := by
  intro e he
  apply h
  rw [nodes_eq]
  exact List.mem_cons_of_mem _ (List.mem_flatMap.mpr ⟨d, hd, he⟩)

theorem mem_collect {β : Type} {f : Code → Option β} {x : β} (hd : d ∈ c.nodes)
    (hx : f d = some x) : x ∈ c.collect f :=
  List.mem_filterMap.mpr ⟨d, hd, hx⟩

theorem mem_blockSlots {slots : List Slot} {slot : Slot} (hd : d ∈ c.nodes)
    (hslots : d.slots? = some slots) (hslot : slot ∈ slots) : slot ∈ c.blockSlots.flatten :=
  List.mem_flatten.mpr ⟨slots, mem_collect hd hslots, hslot⟩

theorem StaysIn.allObey (h : c.StaysIn S) : c.AllObey S S True := by
  intro d hd
  cases d with
  | load slot note => exact h slot (List.mem_append_right _ (mem_collect hd rfl))
  | store slot value note => exact h slot (List.mem_append_right _ (mem_collect hd rfl))
  | block slots body note =>
      exact fun slot hslot => h slot (List.mem_append_left _ (mem_blockSlots hd rfl hslot))
  | _ => trivial

end Code

/-! ### Properties of runs -/

/-- The property holds of each step of a machine that reads slots in `R`, writes slots in
`W` and, if `Q` is true, prints.  It holds of steps in sequence if it holds of each of
them. -/
structure Actions (R W : Slot → Prop) (Q : Prop) (P : (α : Type) → Exec α → Prop) : Prop where
  pure {α : Type} (a : α) : P α (Pure.pure a)
  bind {α β : Type} {x : Exec α} {f : α → Exec β} : P α x → (∀ a, P β (f a)) → P β (x >>= f)
  value {α : Type} (line : Nat) (r : Except ValueFault α) : P α (valueAt line r)
  load {slot : Slot} : R slot → P Value (Machine.load slot.index)
  store {slot : Slot} (v : Value) : W slot → P Unit (Machine.store slot.index v)
  print (line : Option Nat) (v : Value) : Q → P Unit (Machine.print line v)

namespace Actions

variable {R W : Slot → Prop} {Q : Prop} {P : (α : Type) → Exec α → Prop}

theorem resetAll (h : Actions R W Q P) {slots : List Slot} (hslots : ∀ slot ∈ slots, W slot) :
    P Unit (Slot.resetAll slots) := by
  induction slots with
  | nil => exact h.pure ()
  | cons slot rest ih =>
      rw [Slot.resetAll]
      refine h.bind (h.store _ (hslots slot List.mem_cons_self)) fun _ => ?_
      exact ih fun other ho => hslots other (List.mem_cons_of_mem _ ho)

mutual

/-- What is true of the steps is true of the run of every tree that takes only these. -/
theorem run (h : Actions R W Q P) : ∀ {c : Code}, c.AllObey R W Q → P Value c.run
  | .constant v note, _ => by
      rw [Code.run]
      exact h.pure v
  | .load slot note, hc => by
      rw [Code.run]
      exact h.load hc.root
  | .store slot value note, hc => by
      rw [Code.run]
      refine h.bind (h.run (hc.part List.mem_cons_self)) fun v => ?_
      exact h.bind (h.store v hc.root) fun _ => h.pure v
  | .convert operand note, hc => by
      rw [Code.run]
      refine h.bind (h.run (hc.part List.mem_cons_self)) fun v => ?_
      split
      · exact h.value _ _
      · exact h.pure v
  | .binary op left right note, hc => by
      rw [Code.run]
      refine h.bind (h.run (hc.part List.mem_cons_self)) fun l => ?_
      refine h.bind (h.run (hc.part (List.mem_cons_of_mem _ List.mem_cons_self))) fun r => ?_
      exact h.value _ _
  | .logical .and left right note, hc => by
      rw [Code.run]
      refine h.bind (h.run (hc.part List.mem_cons_self)) fun l => ?_
      split
      · exact h.run (hc.part (List.mem_cons_of_mem _ List.mem_cons_self))
      · exact h.pure _
  | .logical .or left right note, hc => by
      rw [Code.run]
      refine h.bind (h.run (hc.part List.mem_cons_self)) fun l => ?_
      split
      · exact h.pure _
      · exact h.run (hc.part (List.mem_cons_of_mem _ List.mem_cons_self))
  | .unary op operand note, hc => by
      rw [Code.run]
      exact h.bind (h.run (hc.part List.mem_cons_self)) fun v => h.value _ _
  | .condition test positive negative note, hc => by
      rw [Code.run]
      refine h.bind (h.run (hc.part List.mem_cons_self)) fun b => ?_
      split
      · exact h.run (hc.part (by simp [Code.parts]))
      · exact h.run (hc.part (by simp [Code.parts]))
  | .call builtin arguments note, hc => by
      rw [Code.run]
      exact h.bind (h.runArguments fun d hd => hc.part hd) fun vs => h.value _ _
  | .print operand note, hc => by
      rw [Code.run]
      refine h.bind (h.run (hc.part List.mem_cons_self)) fun v => ?_
      exact h.bind (h.print _ v hc.root) fun _ => h.pure _
  | .block slots body note, hc => by
      rw [Code.run]
      exact h.bind (h.resetAll hc.root) fun _ => h.runBody .unit fun d hd => hc.part hd

theorem runArguments (h : Actions R W Q P) : ∀ {cs : List Code},
    (∀ c ∈ cs, c.AllObey R W Q) → P (List Value) (Code.runArguments cs)
  | [], _ => by
      rw [Code.runArguments]
      exact h.pure []
  | c :: rest, hcs => by
      rw [Code.runArguments]
      refine h.bind (h.run (hcs c List.mem_cons_self)) fun v => ?_
      refine h.bind (h.runArguments fun d hd => hcs d (List.mem_cons_of_mem _ hd)) fun vs => ?_
      exact h.pure _

theorem runBody (h : Actions R W Q P) (last : Value) : ∀ {cs : List Code},
    (∀ c ∈ cs, c.AllObey R W Q) → P Value (Code.runBody last cs)
  | [], _ => by
      rw [Code.runBody]
      exact h.pure last
  | c :: rest, hcs => by
      rw [Code.runBody]
      refine h.bind (h.run (hcs c List.mem_cons_self)) fun v => ?_
      exact h.runBody v fun d hd => hcs d (List.mem_cons_of_mem _ hd)

end

end Actions

/-- The property holds of each step of a machine on slots in `S`, and of steps in
sequence if it holds of each of them. -/
abbrev Steps (S : Slot → Prop) (P : (α : Type) → Exec α → Prop) : Prop := Actions S S True P

theorem Steps.runBody {S : Slot → Prop} {P : (α : Type) → Exec α → Prop} (h : Steps S P)
    (last : Value) {cs : List Code} (hcs : ∀ c ∈ cs, c.StaysIn S) : P Value (Code.runBody last cs) :=
  Actions.runBody h last fun c hc => (hcs c hc).allObey

/-! ### Machines that agree -/

/-- The machines have the same sink and the same contents in the slots in `S`. -/
structure Machine.AgreeOn (S : Nat → Prop) (m m' : Machine) : Prop where
  sink : m.sink = m'.sink
  slots : ∀ i, S i → m.slots[i]? = m'.slots[i]?

namespace Machine.AgreeOn

variable {S : Nat → Prop} {m m' : Machine}

/-- A slot in `S` is there in both machines or in none. -/
theorem lt_size_iff (h : m.AgreeOn S m') {i : Nat} (hi : S i) :
    i < m.slots.size ↔ i < m'.slots.size := by
  have hnone : m.slots[i]? = none ↔ m'.slots[i]? = none := by rw [h.slots i hi]
  rw [Array.getElem?_eq_none_iff, Array.getElem?_eq_none_iff] at hnone
  omega

theorem put (h : m.AgreeOn S m') (i : Nat) (v : Value) : (m.put i v).AgreeOn S (m'.put i v) where
  sink := h.sink
  slots := by
    intro j hj
    by_cases hij : i = j
    · subst hij
      have hsize := h.lt_size_iff hj
      by_cases hlt : i < m.slots.size
      · rw [get_put hlt, get_put (hsize.mp hlt)]
      · rw [Array.getElem?_eq_none_iff.mpr, Array.getElem?_eq_none_iff.mpr]
        · rw [put_size]
          omega
        · rw [put_size]
          omega
    · rw [get_put_of_ne hij, get_put_of_ne hij]
      exact h.slots j hj

theorem reset (h : m.AgreeOn S m') (slots : List Slot) :
    (m.reset slots).AgreeOn S (m'.reset slots) := by
  unfold Machine.reset
  induction slots generalizing m m' with
  | nil => exact h
  | cons slot rest ih => exact ih (h.put slot.index _)

end Machine.AgreeOn

/-- From machines that agree on `S`, the attempt has the same result and leaves machines
that agree on `S`. -/
def Alike (S : Nat → Prop) (α : Type) (x : Exec α) : Prop :=
  ∀ m m' : Machine, m.AgreeOn S m' →
    (x.run m).1 = (x.run m').1 ∧ (x.run m).2.AgreeOn S (x.run m').2

namespace Alike

variable {S : Nat → Prop} {α β : Type}

theorem bind {x : Exec α} {f : α → Exec β} (hx : Alike S α x) (hf : ∀ a, Alike S β (f a)) :
    Alike S β (x >>= f) := by
  intro m m' hm
  obtain ⟨hresult, hleft⟩ := hx m m' hm
  cases h : x.run m with
  | mk r t =>
      cases h' : x.run m' with
      | mk r' t' =>
          rw [h, h'] at hresult hleft
          have hr : r = r' := hresult
          subst hr
          cases r with
          | ok a =>
              rw [Attempt.bind_of_ok h, Attempt.bind_of_ok h']
              exact hf a t t' hleft
          | error e =>
              rw [Attempt.bind_of_error h, Attempt.bind_of_error h']
              exact ⟨rfl, hleft⟩

theorem load {i : Nat} (hi : S i) : Alike S Value (Machine.load i) := by
  intro m m' hm
  have hslot := hm.slots i hi
  cases h : m.slots[i]? with
  | some v =>
      rw [Machine.load_run h, Machine.load_run (hslot ▸ h)]
      exact ⟨rfl, hm⟩
  | none =>
      rw [Machine.load_run_of_none h, Machine.load_run_of_none (hslot ▸ h)]
      exact ⟨rfl, hm⟩

theorem store {i : Nat} (v : Value) (hi : S i) : Alike S Unit (Machine.store i v) := by
  intro m m' hm
  have hsize := hm.lt_size_iff hi
  by_cases hlt : i < m.slots.size
  · rw [Machine.store_run hlt, Machine.store_run (hsize.mp hlt)]
    exact ⟨rfl, hm.put i v⟩
  · rw [Machine.store_run_of_le (by omega), Machine.store_run_of_le (by omega)]
    exact ⟨rfl, hm⟩

theorem print (line : Option Nat) (v : Value) : Alike S Unit (Machine.print line v) := by
  intro m m' hm
  rw [Machine.print_run, Machine.print_run, hm.sink]
  exact ⟨rfl, rfl, hm.slots⟩

theorem steps (S : Nat → Prop) : Steps (fun slot => S slot.index) (Alike S) where
  pure _ := fun _ _ hm => ⟨rfl, hm⟩
  bind := bind
  value _ _ := fun _ _ hm => ⟨rfl, hm⟩
  load := load
  store := store
  print line v _ := print line v

end Alike

/-! ### Output -/

/-- Whatever the attempt writes comes behind what was written before. -/
def Appends (α : Type) (x : Exec α) : Prop :=
  ∀ m : Machine, ∃ more, (x.run m).2.sink.written = m.sink.written ++ more

namespace Appends

variable {α β : Type}

theorem ofKept {x : Exec α} (h : ∀ m, (x.run m).2.sink = m.sink) : Appends α x := by
  intro m
  rw [h m]
  exact ⟨.empty, ByteArray.append_empty.symm⟩

theorem bind {x : Exec α} {f : α → Exec β} (hx : Appends α x) (hf : ∀ a, Appends β (f a)) :
    Appends β (x >>= f) := by
  intro m
  obtain ⟨more, hmore⟩ := hx m
  cases h : x.run m with
  | mk r t =>
      rw [h] at hmore
      cases r with
      | ok a =>
          obtain ⟨further, hfurther⟩ := hf a t
          refine ⟨more ++ further, ?_⟩
          rw [Attempt.bind_of_ok h, hfurther, hmore, ByteArray.append_assoc]
      | error e =>
          rw [Attempt.bind_of_error h]
          exact ⟨more, hmore⟩

theorem write (sink : Sink) (bytes : ByteArray) :
    ∃ more, (sink.write bytes).2.written = sink.written ++ more := by
  obtain ⟨limit, written⟩ := sink
  cases limit with
  | none => exact ⟨bytes, rfl⟩
  | some n => exact ⟨_, rfl⟩

theorem load (i : Nat) : Appends Value (Machine.load i) := by
  refine ofKept fun m => ?_
  cases h : m.slots[i]? with
  | some v => rw [Machine.load_run h]
  | none => rw [Machine.load_run_of_none h]

theorem store (i : Nat) (v : Value) : Appends Unit (Machine.store i v) := by
  refine ofKept fun m => ?_
  by_cases h : i < m.slots.size
  · rw [Machine.store_run h, Machine.put_sink]
  · rw [Machine.store_run_of_le (by omega)]

theorem print (line : Option Nat) (v : Value) : Appends Unit (Machine.print line v) := by
  intro m
  rw [Machine.print_run]
  exact write m.sink (Machine.lineOf v)

theorem steps : Steps (fun _ => True) Appends where
  pure _ := ofKept fun _ => rfl
  bind := bind
  value _ _ := ofKept fun _ => rfl
  load {slot} _ := load slot.index
  store {slot} v _ := store slot.index v
  print line v _ := print line v

end Appends

end SlotScript
