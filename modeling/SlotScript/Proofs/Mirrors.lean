import Mathlib.Data.List.Forall2
import Mathlib.Data.List.Nodup
import SlotScript.Proofs.Evaluation
import SlotScript.Proofs.Lowers
import SlotScript.Proofs.Storage
import SlotScript.Proofs.ValueTypes

/-! # Frames kept in slots

Direct evaluation looks variables up by name; lowered code has a slot for each.
`Mirrors` says that the two hold the same: the frames stand one for one against
those of the scope, and each variable has the value that its slot holds.

Since no two variables in force share a slot (`Lowering.Numbered`), writing a slot
changes one variable and no other (`Mirrors.write`), and slots that no variable
has may change at will (`Mirrors.keep`). -/

namespace SlotScript

open Direct Lowering

/-! ### Numbers of slots -/

namespace Lowering

/-- The variables in force have slots of their own, among those given out. -/
structure Numbered (s : Lowering) : Prop where
  distinct : (s.scope.slots.map Slot.index).Nodup
  below : ∀ slot ∈ s.scope.slots, slot.index < s.slotCount

/-- Slots are only given out, and variables that come into force have new ones. -/
structure Extends (s t : Lowering) : Prop where
  count : s.slotCount ≤ t.slotCount
  fresh : ∀ slot ∈ t.scope.slots, slot ∈ s.scope.slots ∨ s.slotCount ≤ slot.index

theorem Numbered.start : start.Numbered := ⟨List.nodup_nil, nofun⟩

theorem Numbered.congr {s t : Lowering} (h : s.Numbered) (hs : t.scope.slots = s.scope.slots)
    (hc : s.slotCount ≤ t.slotCount) : t.Numbered := by
  refine ⟨by rw [hs]; exact h.distinct, fun slot hslot => ?_⟩
  rw [hs] at hslot
  exact Nat.lt_of_lt_of_le (h.below slot hslot) hc

theorem Numbered.declared {s : Lowering} (h : s.Numbered) (name : Token) (type : Ty) :
    (s.declared name type).Numbered := by
  constructor
  · rw [declared_scope, (Scope.slots_grow_perm.map Slot.index).nodup_iff]
    refine List.nodup_cons.mpr ⟨fun hmem => ?_, h.distinct⟩
    obtain ⟨slot, hslot, hi⟩ := List.mem_map.mp hmem
    have hlt := h.below slot hslot
    rw [hi] at hlt
    exact absurd hlt (Nat.lt_irrefl s.slotCount)
  · intro slot hslot
    rw [declared_slotCount]
    rcases Scope.mem_slots_grow.mp hslot with hslot | hslot
    · have := h.below slot hslot
      omega
    · rw [List.mem_singleton.mp hslot]
      exact Nat.lt_succ_self s.slotCount

theorem Extends.ofScope {s t : Lowering} (hs : t.scope.slots = s.scope.slots)
    (hc : s.slotCount ≤ t.slotCount) : s.Extends t :=
  ⟨hc, fun slot hslot => .inl (by rw [← hs]; exact hslot)⟩

theorem Extends.declared (s : Lowering) (name : Token) (type : Ty) :
    s.Extends (s.declared name type) := by
  refine ⟨Nat.le_succ s.slotCount, fun slot hslot => ?_⟩
  rcases Scope.mem_slots_grow.mp hslot with hslot | hslot
  · exact .inl hslot
  · rw [List.mem_singleton.mp hslot]
    exact .inr (Nat.le_refl s.slotCount)

theorem Extends.trans {s t u : Lowering} (h : s.Extends t) (h' : t.Extends u) : s.Extends u := by
  refine ⟨Nat.le_trans h.count h'.count, fun slot hslot => ?_⟩
  rcases h'.fresh slot hslot with hslot | hi
  · exact h.fresh slot hslot
  · exact .inr (Nat.le_trans h.count hi)

end Lowering

theorem Expr.Lowers.count_le {e : Expr} {s t : Lowering} {c : Code} (h : e.Lowers s c t) :
    s.slotCount ≤ t.slotCount := by
  induction h with
  | literal v s => exact Nat.le_refl _
  | grouping _ ih => exact ih
  | var _ => exact Nat.le_refl _
  | assign _ _ _ ih => exact ih
  | unary _ _ ih => exact ih
  | binary _ _ _ ihl ihr => exact Nat.le_trans ihl ihr
  | logical _ _ _ _ ihl ihr => exact Nat.le_trans ihl ihr
  | cast _ _ ih => exact ih
  | stepBefore _ _ => exact Nat.le_refl _
  | stepBehind _ _ => exact Nat.le_succ _

mutual

theorem Stmt.Lowers.numbered {stmt : Stmt} {s t : Lowering} {c : Code} :
    stmt.Lowers s c t → s.Numbered → t.Numbered ∧ s.Extends t
  | .expression h, hs => by
      have hscope : t.scope.slots = s.scope.slots := by rw [h.scope_eq]
      exact ⟨hs.congr hscope h.count_le, .ofScope hscope h.count_le⟩
  | .print h, hs => by
      have hscope : t.scope.slots = s.scope.slots := by rw [h.scope_eq]
      exact ⟨hs.congr hscope h.count_le, .ofScope hscope h.count_le⟩
  | @Stmt.Lowers.declare type name _ _, hs => ⟨hs.declared name type, .declared s name type⟩
  | @Stmt.Lowers.declareInit type name _ _ _ _ _ _ h _, hs => by
      have hscope : t.scope.slots = (s.declared name type).scope.slots := by rw [h.scope_eq]
      exact ⟨(hs.declared name type).congr hscope h.count_le,
        (Extends.declared s name type).trans (.ofScope hscope h.count_le)⟩
  | .block h _, hs => by
      have hcount := (h.numbered (hs.congr Scope.slots_push (Nat.le_refl _))).2.count
      exact ⟨hs.congr rfl hcount, .ofScope rfl hcount⟩

/-- Lowering keeps slots apart. -/
theorem Stmt.LowersAll.numbered {stmts : List Stmt} {s t : Lowering} {codes : List Code} :
    Stmt.LowersAll stmts s codes t → s.Numbered → t.Numbered ∧ s.Extends t
  | .nil _, hs => ⟨hs, .ofScope rfl (Nat.le_refl _)⟩
  | .cons h hrest, hs => by
      obtain ⟨ht, hst⟩ := h.numbered hs
      obtain ⟨hu, htu⟩ := hrest.numbered ht
      exact ⟨hu, hst.trans htu⟩

end

/-- The variables that statements declare have slots of their own, given out
while they are lowered. -/
theorem Lowering.Extends.added {s t : Lowering} {added : List Slot} (h : s.Extends t)
    (ht : t.Numbered) (hadded : t.scope = s.scope.grow added) :
    (added.map Slot.index).Nodup ∧
      ∀ slot ∈ added, s.slotCount ≤ slot.index ∧ slot.index < t.slotCount := by
  have hperm : (t.scope.slots.map Slot.index).Perm ((added ++ s.scope.slots).map Slot.index) := by
    rw [hadded]
    exact Scope.slots_grow_perm.map _
  have hd := hperm.nodup_iff.mp ht.distinct
  rw [List.map_append, List.nodup_append] at hd
  refine ⟨hd.1, fun slot hslot => ?_⟩
  have hmem : slot ∈ t.scope.slots := by
    rw [hadded]
    exact Scope.mem_slots_grow.mpr (.inr hslot)
  refine ⟨(h.fresh slot hmem).resolve_left fun hold => ?_, ht.below slot hmem⟩
  exact hd.2.2 _ (List.mem_map_of_mem hslot) _ (List.mem_map_of_mem hold) rfl

/-! ### Variables and slots -/

/-- The slot holds the variable's value. -/
structure Typed.KeptIn (slots : Array Value) (x : Typed) (slot : Slot) : Prop where
  type : x.type = slot.type
  value : slots[slot.index]? = some x.value
  hasType : x.value.HasType slot.type

namespace Direct

/-- The slots of a frame hold the variables of a block. -/
structure Bindings.KeptIn (slots : Array Value) (f : Bindings) (fr : Frame) : Prop where
  absent : ∀ {name}, fr.lookup name = none → f name = none
  present : ∀ {name slot}, fr.lookup name = some slot → ∃ x, f name = some x ∧ x.KeptIn slots slot

variable {slots slots' : Array Value} {f : Bindings} {fr : Frame} {frames : List Bindings}
  {scopes : List Frame} {name : String} {slot : Slot} {v : Value}

theorem Bindings.KeptIn.congr (h : f.KeptIn slots fr)
    (heq : ∀ slot ∈ fr, slots'[slot.index]? = slots[slot.index]?) : f.KeptIn slots' fr := by
  refine ⟨h.absent, fun {name slot} hl => ?_⟩
  obtain ⟨x, hx, hk⟩ := h.present hl
  refine ⟨x, hx, hk.type, ?_, hk.hasType⟩
  rw [heq slot (Frame.mem_of_lookup hl)]
  exact hk.value

/-- Slots that the frames do not have may change. -/
theorem frames_congr (h : List.Forall₂ (Bindings.KeptIn slots) frames scopes)
    (heq : ∀ slot ∈ scopes.flatten, slots'[slot.index]? = slots[slot.index]?) :
    List.Forall₂ (Bindings.KeptIn slots') frames scopes := by
  induction h with
  | nil => exact .nil
  | cons hf _ ih =>
      rw [List.flatten_cons] at heq
      exact .cons (hf.congr fun slot hs => heq slot (List.mem_append_left _ hs))
        (ih fun slot hs => heq slot (List.mem_append_right _ hs))

/-- The variable that a name means is kept in the slot that the name means. -/
theorem find_keptIn (h : List.Forall₂ (Bindings.KeptIn slots) frames scopes)
    (hr : scopes.findSome? (·.lookup name) = some slot) :
    ∃ x, find? name frames = some x ∧ x.KeptIn slots slot := by
  induction h with
  | nil => cases hr
  | @cons f fr frames scopes hf _ ih =>
      unfold find? at ih ⊢
      rw [List.findSome?_cons] at hr ⊢
      cases hl : fr.lookup name with
      | none =>
          rw [hl] at hr
          rw [hf.absent hl]
          exact ih hr
      | some found =>
          rw [hl] at hr
          cases hr
          obtain ⟨x, hx, hk⟩ := hf.present hl
          rw [hx]
          exact ⟨x, rfl, hk⟩

/-- A frame with a new value for the variable that one of its slots holds. -/
theorem Bindings.KeptIn.set {x : Typed} (h : f.KeptIn slots fr) (hl : fr.lookup name = some slot)
    (hd : (fr.map Slot.index).Nodup) (hx : x.KeptIn slots' slot)
    (heq : ∀ j, j ≠ slot.index → slots'[j]? = slots[j]?) : (f.set name x).KeptIn slots' fr := by
  constructor
  · intro other ho
    unfold Bindings.set
    split
    · rename_i hn
      rw [hn, hl] at ho
      cases ho
    · exact h.absent ho
  · intro other found ho
    unfold Bindings.set
    split
    · rename_i hn
      rw [hn, hl] at ho
      cases ho
      exact ⟨x, rfl, hx⟩
    · rename_i hn
      obtain ⟨y, hy, hk⟩ := h.present ho
      refine ⟨y, hy, hk.type, ?_, hk.hasType⟩
      rw [heq found.index]
      · exact hk.value
      · -- Two slots of the frame with one number would be one, and so have one name.
        intro hi
        have := List.inj_on_of_nodup_map hd (Frame.mem_of_lookup ho) (Frame.mem_of_lookup hl) hi
        rw [← Frame.name_of_lookup ho, ← Frame.name_of_lookup hl, this] at hn
        exact hn rfl

/-- A frame with one more variable. -/
theorem Bindings.KeptIn.declare {x : Typed} (h : f.KeptIn slots fr)
    (hn : fr.lookup slot.name = none) (hx : x.KeptIn slots slot) :
    (f.set slot.name x).KeptIn slots (fr ++ [slot]) := by
  constructor
  · intro other ho
    rw [Frame.lookup_append_singleton, Option.or_eq_none_iff] at ho
    unfold Bindings.set
    split
    · rename_i hs
      rw [if_pos hs.symm] at ho
      cases ho.2
    · exact h.absent ho.1
  · intro other found ho
    rw [Frame.lookup_append_singleton] at ho
    unfold Bindings.set
    split
    · rename_i hs
      rw [hs, hn, if_pos rfl] at ho
      cases ho
      exact ⟨x, rfl, hx⟩
    · rename_i hs
      rw [if_neg (Ne.symm hs), Option.or_none] at ho
      exact h.present ho

/-- Writing a slot gives a new value to the variable that it holds, and to no
other. -/
theorem update_keptIn (h : List.Forall₂ (Bindings.KeptIn slots) frames scopes)
    (hd : (scopes.flatten.map Slot.index).Nodup)
    (hr : scopes.findSome? (·.lookup name) = some slot) (hv : v.HasType slot.type)
    (hself : slots'[slot.index]? = some v)
    (heq : ∀ j, j ≠ slot.index → slots'[j]? = slots[j]?) :
    ∃ frames', update? name v frames = some frames' ∧
      List.Forall₂ (Bindings.KeptIn slots') frames' scopes := by
  induction h with
  | nil => cases hr
  | @cons f fr frames scopes hf hrest ih =>
      rw [List.findSome?_cons] at hr
      rw [List.flatten_cons, List.map_append, List.nodup_append] at hd
      obtain ⟨hdf, hdrest, hdisj⟩ := hd
      unfold update?
      cases hl : fr.lookup name with
      | none =>
          rw [hl] at hr
          obtain ⟨frames', hu, hk⟩ := ih hdrest hr
          refine ⟨f :: frames', by rw [hf.absent hl, hu]; rfl, .cons (hf.congr fun other ho => ?_) hk⟩
          obtain ⟨fr', hfr', hl'⟩ := List.exists_of_findSome?_eq_some hr
          refine heq _ (hdisj _ (List.mem_map_of_mem ho) _ (List.mem_map_of_mem ?_))
          exact List.mem_flatten.mpr ⟨fr', hfr', Frame.mem_of_lookup hl'⟩
      | some found =>
          rw [hl] at hr
          cases hr
          obtain ⟨x, hx, hk⟩ := hf.present hl
          rw [hx]
          refine ⟨_, rfl, .cons (hf.set hl hdf ⟨hk.type, hself, hv⟩ heq) ?_⟩
          refine frames_congr hrest fun other ho => heq _ fun hi => ?_
          exact hdisj _ (List.mem_map_of_mem (Frame.mem_of_lookup hl)) _ (List.mem_map_of_mem ho)
            hi.symm

end Direct

/-! ### States and machines -/

/-- The machine holds the variables of the state and has printed, behind `base`,
its output. -/
structure Mirrors (base : ByteArray) (s : Lowering) (m : Machine) (d : State) : Prop where
  numbered : s.Numbered
  frames : List.Forall₂ (Bindings.KeptIn m.slots) d.frames s.scope.frames
  sink : m.sink = ⟨none, base ++ d.output⟩

/-- The slots from `n` on are as they were. -/
structure Machine.Keeps (n : Nat) (m m' : Machine) : Prop where
  size : m'.slots.size = m.slots.size
  slots : ∀ i, n ≤ i → m'.slots[i]? = m.slots[i]?

theorem Machine.Keeps.refl (n : Nat) (m : Machine) : m.Keeps n m := ⟨rfl, fun _ _ => rfl⟩

theorem Machine.Keeps.trans {n k : Nat} {m m' m'' : Machine} (h : m.Keeps n m') (hn : n ≤ k)
    (h' : m'.Keeps k m'') : m.Keeps k m'' := by
  refine ⟨h'.size.trans h.size, fun i hi => ?_⟩
  rw [h'.slots i hi, h.slots i (Nat.le_trans hn hi)]

theorem Machine.Keeps.put {n i : Nat} (m : Machine) (v : Value) (h : i < n) :
    m.Keeps n (m.put i v) :=
  ⟨put_size, fun j hj => get_put_of_ne (by omega)⟩

theorem Machine.Keeps.reset {n : Nat} (m : Machine) {slots : List Slot}
    (h : ∀ slot ∈ slots, slot.index < n) : m.Keeps n (m.reset slots) := by
  refine ⟨reset_size, fun j hj => get_reset_of_ne fun slot hs => ?_⟩
  have := h slot hs
  omega

namespace Mirrors

variable {base : ByteArray} {s t : Lowering} {m m' : Machine} {d : State} {name : String}
  {slot : Slot} {v : Value}

theorem congr (h : Mirrors base s m d) (hs : t.scope = s.scope) (hc : s.slotCount ≤ t.slotCount) :
    Mirrors base t m d := by
  refine ⟨h.numbered.congr (by rw [hs]) hc, ?_, h.sink⟩
  rw [hs]
  exact h.frames

/-- Slots that no variable in force has may change. -/
theorem keep (h : Mirrors base s m d) (hk : m'.sink = m.sink)
    (heq : ∀ i, i < s.slotCount → m'.slots[i]? = m.slots[i]?) : Mirrors base s m' d := by
  refine ⟨h.numbered, frames_congr h.frames fun slot hs => ?_, by rw [hk]; exact h.sink⟩
  exact heq _ (h.numbered.below slot hs)

theorem index_lt (h : Mirrors base s m d) (hr : s.scope.resolve name = .ok slot) :
    slot.index < s.slotCount :=
  h.numbered.below slot (Scope.mem_slots_of_resolve hr)

theorem read (h : Mirrors base s m d) (hr : s.scope.resolve name = .ok slot) :
    ∃ v, m.slots[slot.index]? = some v ∧ v.HasType slot.type ∧
      (Direct.read name).run d = (.ok ⟨slot.type, v⟩, d) := by
  obtain ⟨⟨type, v⟩, hf, ht, hv, hty⟩ := find_keptIn h.frames (Scope.resolve_eq_ok.mp hr)
  cases ht
  refine ⟨v, hv, hty, ?_⟩
  rw [Direct.read, Attempt.bind_of_ok (Attempt.get_run d), hf]
  rfl

theorem write (h : Mirrors base s m d) (hr : s.scope.resolve name = .ok slot)
    (hv : v.HasType slot.type) (hsize : s.slotCount ≤ m.slots.size) :
    ∃ d', (Direct.write name v).run d = (.ok (), d') ∧
      Mirrors base s (m.put slot.index v) d' := by
  have hi := h.index_lt hr
  have hself : (m.put slot.index v).slots[slot.index]? = some v := Machine.get_put (by omega)
  obtain ⟨frames, hu, hk⟩ := update_keptIn h.frames h.numbered.distinct (Scope.resolve_eq_ok.mp hr)
    hv hself fun j hj => Machine.get_put_of_ne (Ne.symm hj)
  refine ⟨{ d with frames }, ?_, h.numbered, hk, h.sink⟩
  rw [Direct.write, Attempt.bind_of_ok (Attempt.get_run d), hu]
  rfl

theorem print (h : Mirrors base s m d) (line : Option Nat) (v : Value) :
    ∃ m' d', (Machine.print line v).run m = (.ok (), m') ∧
      (Direct.print v).run d = (.ok (), d') ∧ Mirrors base s m' d' ∧ m'.slots = m.slots := by
  obtain ⟨slots, sink⟩ := m
  obtain ⟨hn, hf, hs⟩ := h
  cases hs
  refine ⟨_, _, rfl, rfl, ⟨hn, hf, ?_⟩, rfl⟩
  simp [ByteArray.append_assoc]

/-- Declaring a variable whose slot holds its default value. -/
theorem bindName {k : Token} {type : Ty} (h : Mirrors base s m d)
    (hn : s.scope.current.lookup k.lexeme = none)
    (hv : m.slots[s.slotCount]? = some (.default type)) :
    ∃ d', (Direct.bindName k.lexeme type).run d = (.ok (), d') ∧
      Mirrors base (s.declared k type) m d' := by
  obtain ⟨hnum, hf, hs⟩ := h
  obtain ⟨outer, hframes, hgrow⟩ := s.scope.frames_grow
  obtain ⟨frames, output⟩ := d
  rw [hframes] at hf
  cases hf with
  | @cons f _ rest _ hf hrest =>
      have hx : Typed.KeptIn m.slots ⟨type, .default type⟩ (s.fresh k.lexeme type) :=
        ⟨rfl, hv, Value.default_hasType type⟩
      refine ⟨⟨f.set k.lexeme ⟨type, .default type⟩ :: rest, output⟩, rfl, hnum.declared k type, ?_, hs⟩
      rw [declared_scope, hgrow]
      exact .cons (hf.declare hn hx) hrest

end Mirrors

end SlotScript
