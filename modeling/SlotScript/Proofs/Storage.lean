import SlotScript.Machine.Run
import SlotScript.Proofs.Attempts

/-! # Reading and writing slots

What the steps of a machine do to its slots, in terms of two operations on
machines: writing one slot (`Machine.put`) and giving several slots their default
values (`Machine.reset`). -/

namespace SlotScript

namespace Machine

/-- The machine with another value in a slot. -/
def put (m : Machine) (i : Nat) (v : Value) : Machine :=
  { m with slots := m.slots.setIfInBounds i v }

/-- The machine with the default values of their types in some slots. -/
def reset (m : Machine) (slots : List Slot) : Machine :=
  slots.foldl (fun m slot => m.put slot.index (.default slot.type)) m

variable {m : Machine} {i j : Nat} {v : Value} {slots : List Slot}

@[simp] theorem put_size : (m.put i v).slots.size = m.slots.size := by simp [put]

@[simp] theorem put_sink : (m.put i v).sink = m.sink := rfl

theorem get_put (h : i < m.slots.size) : (m.put i v).slots[i]? = some v := by simp [put, h]

theorem get_put_of_ne (h : i ≠ j) : (m.put i v).slots[j]? = m.slots[j]? := by
  simp only [put, Array.getElem?_setIfInBounds_ne h]

theorem get_put_same (h : m.slots[i]? = some v) (j : Nat) :
    (m.put i v).slots[j]? = m.slots[j]? := by
  by_cases hij : i = j
  · subst hij
    rw [get_put (Array.getElem?_eq_some_iff.mp h).1, h]
  · exact get_put_of_ne hij

@[simp] theorem reset_size : (m.reset slots).slots.size = m.slots.size := by
  unfold reset
  induction slots generalizing m with
  | nil => rfl
  | cons slot rest ih => rw [List.foldl_cons, ih, put_size]

@[simp] theorem reset_sink : (m.reset slots).sink = m.sink := by
  unfold reset
  induction slots generalizing m with
  | nil => rfl
  | cons slot rest ih => rw [List.foldl_cons, ih, put_sink]

theorem get_reset_of_ne (h : ∀ slot ∈ slots, slot.index ≠ j) :
    (m.reset slots).slots[j]? = m.slots[j]? := by
  unfold reset
  induction slots generalizing m with
  | nil => rfl
  | cons slot rest ih =>
      rw [List.foldl_cons, ih fun other ho => h other (List.mem_cons_of_mem _ ho)]
      exact get_put_of_ne (h slot List.mem_cons_self)

theorem get_reset {slot : Slot} (hd : (slots.map Slot.index).Nodup) (hs : slot ∈ slots)
    (h : slot.index < m.slots.size) :
    (m.reset slots).slots[slot.index]? = some (.default slot.type) := by
  induction slots generalizing m with
  | nil => cases hs
  | cons first rest ih =>
      rw [List.map_cons, List.nodup_cons] at hd
      have hcons : m.reset (first :: rest) =
          (m.put first.index (.default first.type)).reset rest := rfl
      rw [hcons]
      rcases List.mem_cons.mp hs with rfl | hs
      · rw [get_reset_of_ne, get_put h]
        intro other ho hi
        exact hd.1 (hi ▸ List.mem_map_of_mem ho)
      · exact ih hd.2 hs (by rw [put_size]; exact h)

theorem load_run (h : m.slots[i]? = some v) : (load i).run m = (.ok v, m) := by
  simp [load, Attempt.run, h]

theorem store_run (h : i < m.slots.size) : (store i v).run m = (.ok (), m.put i v) := by
  simp [store, Attempt.run, h, put]

theorem load_run_of_none (h : m.slots[i]? = none) :
    (load i).run m = (.error ⟨none, .slotOutOfRange i⟩, m) := by
  simp [load, Attempt.run, h]

theorem store_run_of_le (h : m.slots.size ≤ i) :
    (store i v).run m = (.error ⟨none, .slotOutOfRange i⟩, m) := by
  simp [store, Attempt.run, Nat.not_lt.mpr h]

/-- The line of output that a value is printed as. -/
def lineOf (v : Value) : ByteArray := (v.text ++ "\n").toByteArray

theorem print_run (line : Option Nat) :
    (print line v).run m =
      (if (m.sink.write (lineOf v)).1 then .ok () else .error ⟨line, .outputRefused⟩,
        { m with sink := (m.sink.write (lineOf v)).2 }) := by
  obtain ⟨slots, sink⟩ := m
  unfold lineOf
  cases h : sink.write (v.text ++ "\n").toByteArray with
  | mk fits after =>
      cases fits with
      | true => simp only [print, Attempt.run, h, if_true]
      | false => simp only [print, Attempt.run, h, Bool.false_eq_true, if_false]

theorem resetAll_run (h : ∀ slot ∈ slots, slot.index < m.slots.size) :
    (Slot.resetAll slots).run m = (.ok (), m.reset slots) := by
  induction slots generalizing m with
  | nil => rfl
  | cons slot rest ih =>
      rw [Slot.resetAll, Attempt.bind_of_ok (store_run (h slot List.mem_cons_self)), ih]
      · rfl
      · intro other ho
        rw [put_size]
        exact h other (List.mem_cons_of_mem _ ho)

end Machine

end SlotScript
