import SlotScript.Proofs.Attempts
import SlotScript.Scope

/-! # Growing scopes

All that declarations do to a scope is to add variables at the end of its
innermost frame (`Scope.grow`).  A block that is opened, grown and closed leaves
the scope as it was and gives back the added variables (`Scope.pop_grow_push`). -/

namespace SlotScript

namespace Frame

variable {f : Frame} {name : String} {slot : Slot}

@[simp] theorem mem_sorted : slot ∈ f.sorted ↔ slot ∈ f := by
  unfold sorted
  exact List.mem_mergeSort

theorem sorted_perm (f : Frame) : f.sorted.Perm f := List.mergeSort_perm _ _

theorem mem_of_lookup (h : f.lookup name = some slot) : slot ∈ f := List.mem_of_find?_eq_some h

theorem lookup_append_singleton :
    lookup (f ++ [slot]) name =
      (f.lookup name).or (if slot.name = name then some slot else none) := by
  unfold lookup
  rw [List.find?_append, List.find?_singleton]
  simp

theorem name_of_lookup (h : f.lookup name = some slot) : slot.name = name := by
  have := List.find?_some h
  simpa using this

end Frame

namespace Scope

/-- The frames from the inside out; the last one holds the globals. -/
def frames (s : Scope) : List Frame := s.blocks ++ [s.globals]

/-- All variables in force, hidden ones included. -/
def slots (s : Scope) : List Slot := s.frames.flatten

/-- The scope with more variables in its innermost frame. -/
def grow (s : Scope) (added : List Slot) : Scope :=
  match s.blocks with
  | f :: rest => { s with blocks := (f ++ added) :: rest }
  | [] => { s with globals := s.globals ++ added }

variable {s t : Scope} {name : String} {slot : Slot} {added more : List Slot}

@[simp] theorem grow_nil : s.grow [] = s := by
  obtain ⟨globals, blocks⟩ := s
  cases blocks with
  | nil => simp [grow]
  | cons f rest => simp [grow]

@[simp] theorem grow_grow : (s.grow added).grow more = s.grow (added ++ more) := by
  obtain ⟨globals, blocks⟩ := s
  cases blocks with
  | nil => simp [grow]
  | cons f rest => simp [grow]

@[simp] theorem pop_grow_push : (s.push.grow added).pop = (some added, s) := by
  simp [push, grow, pop]

@[simp] theorem slots_push : s.push.slots = s.slots := by
  simp [slots, frames, push]

theorem mem_slots_grow : slot ∈ (s.grow added).slots ↔ slot ∈ s.slots ∨ slot ∈ added := by
  obtain ⟨globals, blocks⟩ := s
  cases blocks with
  | nil => simp [slots, frames, grow]
  | cons f rest => simp [slots, frames, grow, or_comm, or_left_comm]

/-- The innermost frame is the one that grows. -/
theorem frames_grow (s : Scope) :
    ∃ outer, s.frames = s.current :: outer ∧
      ∀ added, (s.grow added).frames = (s.current ++ added) :: outer := by
  obtain ⟨globals, blocks⟩ := s
  cases blocks with
  | nil => exact ⟨[], rfl, fun _ => rfl⟩
  | cons f rest => exact ⟨rest ++ [globals], rfl, fun _ => rfl⟩

theorem slots_grow_perm : (s.grow added).slots.Perm (added ++ s.slots) := by
  obtain ⟨globals, blocks⟩ := s
  cases blocks with
  | nil => simpa [slots, frames, grow] using List.perm_append_comm
  | cons f rest =>
      simp only [slots, frames, grow, List.cons_append, List.flatten_cons]
      rw [← List.append_assoc]
      exact List.perm_append_comm.append_right _

@[simp] theorem frames_push : s.push.frames = [] :: s.frames := rfl

@[simp] theorem frames_push_grow : (s.push.grow added).frames = added :: s.frames := rfl

@[simp] theorem empty_grow : empty.grow added = ⟨added, []⟩ := rfl

theorem resolve_eq_ok :
    s.resolve name = .ok slot ↔ s.frames.findSome? (·.lookup name) = some slot := by
  unfold resolve frames
  cases (s.blocks ++ [s.globals]).findSome? (·.lookup name) with
  | none => simp
  | some slot' => simp

theorem resolve_eq_error :
    s.resolve name = .error (.undefinedVariable name) ↔
      s.frames.findSome? (·.lookup name) = none := by
  unfold resolve frames
  cases (s.blocks ++ [s.globals]).findSome? (·.lookup name) with
  | none => simp
  | some slot' => simp

theorem mem_slots_of_resolve (h : s.resolve name = .ok slot) : slot ∈ s.slots := by
  obtain ⟨f, hf, hl⟩ := List.exists_of_findSome?_eq_some (resolve_eq_ok.mp h)
  exact List.mem_flatten.mpr ⟨f, hf, Frame.mem_of_lookup hl⟩

/-- A variable is in force as soon as it is declared. -/
theorem resolve_grow (h : s.current.lookup slot.name = none) :
    (s.grow [slot]).resolve slot.name = .ok slot := by
  obtain ⟨outer, -, hgrow⟩ := s.frames_grow
  rw [resolve_eq_ok, hgrow, List.findSome?_cons, Frame.lookup_append_singleton, h, if_pos rfl]
  rfl

theorem declare_eq_ok :
    s.declare slot = .ok t ↔ s.current.lookup slot.name = none ∧ t = s.grow [slot] := by
  unfold declare grow
  cases s.current.lookup slot.name with
  | some _ => simp
  | none =>
      cases s.blocks with
      | nil => simp [eq_comm]
      | cons f rest => simp [eq_comm]

theorem declare_eq_error :
    s.declare slot = .error (.duplicateDeclaration slot.name) ↔
      s.current.lookup slot.name ≠ none := by
  unfold declare
  cases s.current.lookup slot.name with
  | some _ => simp
  | none =>
      cases s.blocks with
      | nil => simp
      | cons f rest => simp

end Scope

end SlotScript
