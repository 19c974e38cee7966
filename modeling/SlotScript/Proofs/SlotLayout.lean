import Mathlib.Data.List.Flatten
import Mathlib.Data.List.Forall2
import Mathlib.Data.List.Nodup
import SlotScript.Proofs.Nodes

/-! # Slots of a lowered program

Each variable and each temporary of a program has a slot of its own.  Between two
states of lowering the slots given out are those numbered from the first counter
up to the second (`Lowering.Gives`): some belong to the frame that is still open,
the others to blocks that are already lowered.  The steps of lowering only
compose: `Gives.trans` joins two stretches, `Gives.declared` and
`Gives.temporary` give out one slot, and `Gives.close` turns the open frame into
a block.

The accesses of the lowered code follow those of the source one by one
(`Access.Goes`), a variable's to the slot of a variable with its name and a
temporary's to the slot of a temporary, so names never decide between the two.
The main statement is `lower_slotLayout`. -/

namespace SlotScript

/-! ### Frames in the order of their slots -/

namespace Frame

/-- The slots have increasing numbers. -/
def Increasing (slots : List Slot) : Prop := slots.Pairwise fun a b => a.index < b.index

theorem sorted_pairwise (f : Frame) : f.sorted.Pairwise fun a b => a.index ≤ b.index := by
  refine (List.pairwise_mergeSort ?_ ?_ f).imp ?_
  · intro a b c hab hbc
    simp only [Bool.or_eq_true, decide_eq_true_eq, Bool.and_eq_true, beq_iff_eq] at hab hbc ⊢
    rcases hab with hab | ⟨hab, hname⟩
    · omega
    · rcases hbc with hbc | ⟨hbc, hname'⟩
      · omega
      · exact .inr ⟨by omega, String.le_trans hname hname'⟩
  · intro a b
    simp only [Bool.or_eq_true, decide_eq_true_eq, Bool.and_eq_true, beq_iff_eq]
    have hname := String.le_total a.name b.name
    by_cases heq : a.index = b.index
    · rcases hname with hname | hname
      · exact .inl (.inr ⟨heq, hname⟩)
      · exact .inr (.inr ⟨heq.symm, hname⟩)
    · omega
  · intro a b hab
    simp only [Bool.or_eq_true, decide_eq_true_eq, Bool.and_eq_true, beq_iff_eq] at hab
    omega

theorem sorted_increasing {f : Frame} (h : (f.map Slot.index).Nodup) : Increasing f.sorted := by
  have hdistinct : (f.sorted.map Slot.index).Nodup := ((sorted_perm f).map _).nodup_iff.mpr h
  rw [List.nodup_iff_pairwise_ne, List.pairwise_map] at hdistinct
  refine (f.sorted_pairwise.and hdistinct).imp ?_
  intro a b hab
  exact Nat.lt_of_le_of_ne hab.1 hab.2

/-- However the entries are listed, sorting gives the same list. -/
theorem sorted_of_perm {slots entries : List Slot} (h : Increasing slots)
    (hperm : entries.Perm slots) : sorted entries = slots := by
  have hperm : (sorted entries).Perm slots := (sorted_perm entries).trans hperm
  have hdistinct : (slots.map Slot.index).Nodup := by
    rw [List.nodup_iff_pairwise_ne, List.pairwise_map]
    exact h.imp Nat.ne_of_lt
  have hle : slots.Pairwise fun a b => a.index ≤ b.index := h.imp Nat.le_of_lt
  refine List.Perm.eq_of_pairwise ?_ (sorted_pairwise entries) hle hperm
  intro a b ha hb hab hba
  exact List.inj_on_of_nodup_map hdistinct (hperm.mem_iff.mp ha) hb (Nat.le_antisymm hab hba)

end Frame

/-! ### Slots given out -/

namespace Lowering

/-- From `s` to `t` the slots of these variables and temporaries are given out.
The variables in `added` are in force at `t`; the other slots are declared by the
`blocks`. -/
structure Gives (s t : Lowering) (added vars temps : List Slot)
    (blocks : List (List Slot)) : Prop where
  scope : t.scope = s.scope.grow added
  count : t.slotCount = s.slotCount + (vars ++ temps).length
  indices : ((vars ++ temps).map Slot.index).Perm
    (List.range' s.slotCount (vars ++ temps).length)
  split : (added ++ blocks.flatten).Perm (vars ++ temps)
  added_subset : added ⊆ vars
  named : ∀ slot ∈ temps, slot.name = "temp"
  increasing : ∀ slots ∈ blocks, Frame.Increasing slots

namespace Gives

variable {s t u : Lowering} {added vars temps : List Slot} {blocks : List (List Slot)}

theorem nothing (hscope : t.scope = s.scope) (hcount : t.slotCount = s.slotCount) :
    s.Gives t [] [] [] [] where
  scope := by rw [Scope.grow_nil, hscope]
  count := hcount
  indices := .nil
  split := .nil
  added_subset := List.nil_subset _
  named := nofun
  increasing := nofun

theorem declared (s : Lowering) (name : Token) (type : Ty) :
    s.Gives (s.declared name type) [s.fresh name.lexeme type] [s.fresh name.lexeme type] [] [] where
  scope := rfl
  count := rfl
  indices := .refl _
  split := .refl _
  added_subset := List.Subset.refl _
  named := nofun
  increasing := nofun

theorem temporary (s : Lowering) (type : Ty) (n : Nat) :
    s.Gives (s.atLine n).taken [] [] [s.fresh "temp" type] [[s.fresh "temp" type]] where
  scope := by simp
  count := rfl
  indices := .refl _
  split := .refl _
  added_subset := List.nil_subset _
  named := by simp [fresh]
  increasing := by simp [Frame.Increasing]

/-- The line does not matter. -/
theorem ofLine {n : Nat} (h : (s.atLine n).Gives t added vars temps blocks) :
    s.Gives t added vars temps blocks :=
  ⟨h.scope, h.count, h.indices, h.split, h.added_subset, h.named, h.increasing⟩

theorem trans {added' vars' temps' : List Slot} {blocks' : List (List Slot)}
    (h : s.Gives t added vars temps blocks)
    (h' : t.Gives u added' vars' temps' blocks') :
    s.Gives u (added ++ added') (vars ++ vars') (temps ++ temps')
      (blocks ++ blocks') where
  scope := by rw [h'.scope, h.scope, Scope.grow_grow]
  count := by
    have hfirst := h.count
    have hsecond := h'.count
    simp only [List.length_append] at hfirst hsecond ⊢
    omega
  indices := by
    have hshuffle : (vars ++ vars' ++ (temps ++ temps')).Perm
        ((vars ++ temps) ++ (vars' ++ temps')) := by
      apply List.perm_iff_count.mpr
      intro slot
      simp only [List.count_append]
      omega
    have hlength : (vars ++ vars' ++ (temps ++ temps')).length =
        (vars ++ temps).length + (vars' ++ temps').length := by
      rw [hshuffle.length_eq, List.length_append]
    rw [hlength, ← List.range'_append_1, ← h.count]
    refine (hshuffle.map Slot.index).trans ?_
    rw [List.map_append]
    exact h.indices.append h'.indices
  split := by
    have hfirst := List.perm_iff_count.mp h.split
    have hsecond := List.perm_iff_count.mp h'.split
    apply List.perm_iff_count.mpr
    intro slot
    have h₁ := hfirst slot
    have h₂ := hsecond slot
    simp only [List.flatten_append, List.count_append] at h₁ h₂ ⊢
    omega
  added_subset := List.append_subset.mpr
    ⟨List.subset_append_of_subset_left _ h.added_subset,
      List.subset_append_of_subset_right _ h'.added_subset⟩
  named := by
    intro slot hslot
    rcases List.mem_append.mp hslot with hslot | hslot
    · exact h.named slot hslot
    · exact h'.named slot hslot
  increasing := by
    intro slots hslots
    rcases List.mem_append.mp hslots with hslots | hslots
    · exact h.increasing slots hslots
    · exact h'.increasing slots hslots

/-- No two slots given out have the same number. -/
theorem nodup (h : s.Gives t added vars temps blocks) :
    ((vars ++ temps).map Slot.index).Nodup :=
  h.indices.nodup_iff.mpr List.nodup_range'

theorem nodup_split (h : s.Gives t added vars temps blocks) :
    ((added ++ blocks.flatten).map Slot.index).Nodup :=
  (h.split.map Slot.index).nodup_iff.mpr h.nodup

theorem sorted_increasing (h : s.Gives t added vars temps blocks) :
    Frame.Increasing (Frame.sorted added) := by
  have hnodup := h.nodup_split
  rw [List.map_append] at hnodup
  exact Frame.sorted_increasing (List.nodup_append.mp hnodup).1

/-- The block that the open frame becomes has its slots in order. -/
theorem close (h : ({ s with scope := s.scope.push } : Lowering).Gives t added vars
      temps blocks) :
    s.Gives { t with scope := s.scope } [] vars temps (Frame.sorted added :: blocks) where
  scope := Scope.grow_nil.symm
  count := h.count
  indices := h.indices
  split := by
    rw [List.nil_append, List.flatten_cons]
    exact ((Frame.sorted_perm added).append_right _).trans h.split
  added_subset := List.nil_subset _
  named := h.named
  increasing := by
    intro slots hslots
    rcases List.mem_cons.mp hslots with rfl | hslots
    · exact h.sorted_increasing
    · exact h.increasing slots hslots

/-- What is in force at `t` is a variable given out since `s`, or was in force
before. -/
theorem mem_slots (h : s.Gives t added vars temps blocks) {slot : Slot}
    (hslot : slot ∈ t.scope.slots) : slot ∈ vars ++ s.scope.slots := by
  rw [h.scope] at hslot
  rcases Scope.mem_slots_grow.mp hslot with hold | hnew
  · exact List.mem_append_right _ hold
  · exact List.mem_append_left _ (h.added_subset hnew)

end Gives

end Lowering

/-! ### Accesses of the source -/

/-- What the code for a piece of source reads or writes. -/
inductive Access where
  | named (name : String)
  | temporary
deriving DecidableEq, Repr

/-- The accesses of an expression.  A step behind a variable keeps the old value
in a temporary and yields it from there. -/
def Expr.accesses : Expr → List Access
  | .literal _ => []
  | .var name => [.named name.lexeme]
  | .unary _ e | .grouping e | .cast _ e => e.accesses
  | .binary left _ right | .logical left _ right => left.accesses ++ right.accesses
  | .assign target e => .named target.lexeme :: e.accesses
  | .step _ target true => [.named target.lexeme, .named target.lexeme]
  | .step _ target false =>
    [.temporary, .named target.lexeme, .named target.lexeme, .named target.lexeme,
      .temporary]

mutual

/-- The accesses of a statement. -/
def Stmt.accesses : Stmt → List Access
  | .expression e | .print e => e.accesses
  | .block body => Stmt.allAccesses body
  | .declare _ name initial => .named name.lexeme :: (initial.map Expr.accesses).getD []
  | .conditional _ _ condition branches => condition.accesses ++ Stmt.allAccesses branches

/-- The accesses of statements. -/
def Stmt.allAccesses : List Stmt → List Access
  | [] => []
  | stmt :: rest => stmt.accesses ++ Stmt.allAccesses rest

end

mutual

/-- The variables that a statement declares, those of inner blocks included. -/
def Stmt.declarations : Stmt → List (Ty × String)
  | .expression _ | .print _ => []
  | .block body => Stmt.allDeclarations body
  | .declare type name _ => [(type, name.lexeme)]
  | .conditional _ _ _ branches => Stmt.allDeclarations branches

/-- The variables that statements declare. -/
def Stmt.allDeclarations : List Stmt → List (Ty × String)
  | [] => []
  | stmt :: rest => stmt.declarations ++ Stmt.allDeclarations rest

end

/-- The type and name that a slot was declared with. -/
def Slot.declaration (slot : Slot) : Ty × String := (slot.type, slot.name)

/-- An access to a variable goes to the slot of a variable with that name, and
one to a temporary to the slot of a temporary. -/
inductive Access.Goes (vars temps : List Slot) : Access → Slot → Prop
  | named {slot : Slot} : slot ∈ vars → Goes vars temps (.named slot.name) slot
  | temporary {slot : Slot} : slot ∈ temps → Goes vars temps .temporary slot

theorem Access.Goes.mono {vars vars' temps temps' : List Slot}
    (hv : vars ⊆ vars') (ht : temps ⊆ temps') {as : List Access}
    {slots : List Slot} (h : List.Forall₂ (Goes vars temps) as slots) :
    List.Forall₂ (Goes vars' temps') as slots := by
  refine h.imp ?_
  intro a slot ha
  cases ha with
  | named hslot => exact .named (hv hslot)
  | temporary hslot => exact .temporary (ht hslot)

theorem Access.Goes.resolve {s : Scope} {name : String} {slot : Slot} (temps : List Slot)
    (h : s.resolve name = .ok slot) : Goes s.slots temps (.named name) slot := by
  obtain ⟨f, _, hl⟩ := List.exists_of_findSome?_eq_some (Scope.resolve_eq_ok.mp h)
  have hname := Frame.name_of_lookup hl
  rw [← hname]
  exact .named (Scope.mem_slots_of_resolve h)

/-! ### Laying out -/

namespace Lowering

/-- Lowering from `s` to `t` declares these variables and makes these accesses.
Its code has these blocks, and the accesses go to the slots in `used`. -/
def Lays (s t : Lowering) (declarations : List (Ty × String)) (accesses : List Access)
    (blocks : List (List Slot)) (used : List Slot) : Prop :=
  ∃ added vars temps, s.Gives t added vars temps blocks ∧
    vars.map Slot.declaration = declarations ∧
    List.Forall₂ (Access.Goes (vars ++ s.scope.slots) temps) accesses used

namespace Lays

variable {s t u : Lowering} {ds ds' : List (Ty × String)} {as as' : List Access}
  {blocks blocks' : List (List Slot)} {used used' : List Slot}

theorem nothing (hscope : t.scope = s.scope) (hcount : t.slotCount = s.slotCount) :
    s.Lays t [] [] [] [] :=
  ⟨[], [], [], .nothing hscope hcount, rfl, .nil⟩

theorem access {name : String} {slot : Slot} (h : s.scope.resolve name = .ok slot) :
    s.Lays s [] [.named name] [] [slot] :=
  ⟨[], [], [], .nothing rfl rfl, rfl, .cons (.resolve [] h) .nil⟩

theorem declared (s : Lowering) (name : Token) (type : Ty) :
    s.Lays (s.declared name type) [(type, name.lexeme)] [.named name.lexeme] []
      [s.fresh name.lexeme type] :=
  ⟨_, _, _, .declared s name type, rfl, .cons (.named List.mem_cons_self) .nil⟩

/-- The accesses of a step behind a variable. -/
theorem stepBehind {name : String} {slot : Slot} (h : s.scope.resolve name = .ok slot) (n : Nat) :
    s.Lays (s.atLine n).taken []
      [.temporary, .named name, .named name, .named name, .temporary]
      [[s.fresh "temp" slot.type]]
      [s.fresh "temp" slot.type, slot, slot, slot, s.fresh "temp" slot.type] := by
  have htemp : Access.Goes s.scope.slots [s.fresh "temp" slot.type] .temporary
      (s.fresh "temp" slot.type) := .temporary List.mem_cons_self
  have hslot : Access.Goes s.scope.slots [s.fresh "temp" slot.type] (.named name) slot :=
    .resolve _ h
  exact ⟨[], [], _, .temporary s slot.type n, rfl,
    .cons htemp (.cons hslot (.cons hslot (.cons hslot (.cons htemp .nil))))⟩

theorem ofLine {n : Nat} (h : (s.atLine n).Lays t ds as blocks used) :
    s.Lays t ds as blocks used := by
  obtain ⟨added, vars, temps, hgives, hvars, hgoes⟩ := h
  exact ⟨added, vars, temps, hgives.ofLine, hvars, hgoes⟩

theorem congr (h : s.Lays t ds as blocks used) (hblocks : blocks' = blocks)
    (hused : used' = used) : s.Lays t ds as blocks' used' := by
  rw [hblocks, hused]
  exact h

theorem trans (h : s.Lays t ds as blocks used) (h' : t.Lays u ds' as' blocks' used') :
    s.Lays u (ds ++ ds') (as ++ as') (blocks ++ blocks') (used ++ used') := by
  obtain ⟨added, vars, temps, hgives, hvars, hgoes⟩ := h
  obtain ⟨added', vars', temps', hgives', hvars', hgoes'⟩ := h'
  have hfirst : vars ++ s.scope.slots ⊆ vars ++ vars' ++ s.scope.slots := by
    intro slot hslot
    grind
  have hsecond : vars' ++ t.scope.slots ⊆ vars ++ vars' ++ s.scope.slots := by
    intro slot hslot
    rcases List.mem_append.mp hslot with hnew | hold
    · grind
    · have hmem := hgives.mem_slots hold
      grind
  refine ⟨_, _, _, hgives.trans hgives', by rw [List.map_append, hvars, hvars'], ?_⟩
  exact List.rel_append (Access.Goes.mono hfirst (List.subset_append_left _ _) hgoes)
    (Access.Goes.mono hsecond (List.subset_append_right _ _) hgoes')

/-- The frame that a block opened becomes its slots. -/
theorem close {added : Frame}
    (h : ({ s with scope := s.scope.push } : Lowering).Lays t ds as blocks used)
    (ht : t.scope = s.scope.push.grow added) :
    s.Lays { t with scope := s.scope } ds as (added.sorted :: blocks) used := by
  obtain ⟨added', vars, temps, hgives, hvars, hgoes⟩ := h
  have hframe : added' = added := by
    have hgrow := hgives.scope.symm.trans ht
    have hpop := congrArg Scope.pop hgrow
    rw [Scope.pop_grow_push, Scope.pop_grow_push] at hpop
    exact Option.some.inj (congrArg Prod.fst hpop)
  subst hframe
  rw [Scope.slots_push] at hgoes
  exact ⟨[], vars, temps, hgives.close, hvars, hgoes⟩

end Lays

end Lowering

/-! ### Lowered code -/

open Code Lowering

theorem Expr.Lowers.lays {e : Expr} {s t : Lowering} {c : Code} (h : e.Lowers s c t) :
    s.Lays t [] e.accesses c.blockSlots c.accesses := by
  induction h with
  | literal v s =>
      rw [blockSlots_ofValue, accesses_ofValue]
      exact .nothing rfl rfl
  | grouping _ ih => exact ih
  | @var name s slot hr =>
      rw [blockSlots_loadFrom, accesses_loadFrom]
      exact (Lays.access hr).trans (.nothing rfl rfl)
  | @assign target e s t slot c d hr _ hd ih =>
      rw [blockSlots_storeTo, accesses_storeTo]
      have hvalue : s.Lays t [] e.accesses d.blockSlots d.accesses :=
        ih.ofLine.congr (collect_asStored skipsPlain_slots? hd) (collect_asStored skipsPlain_access? hd)
      exact (Lays.access hr).trans hvalue
  | @unary op e s t o c d _ hp ih =>
      have hoperand : s.Lays t [] e.accesses d.blockSlots d.accesses :=
        ih.ofLine.congr (collect_prepared skipsPlain_slots? hp) (collect_prepared skipsPlain_access? hp)
      exact hoperand.congr (collect_around skipsPlain_slots? rfl rfl)
        (collect_around skipsPlain_access? rfl rfl)
  | binary _ _ hc ihl ihr =>
      exact (ihl.ofLine.trans ihr).congr (collect_combine skipsPlain_slots? hc)
        (collect_combine skipsPlain_access? hc)
  | @logical left right op s t u a b l r _ hl _ hr ihl ihr =>
      have hleft : s.Lays t [] left.accesses l.blockSlots l.accesses :=
        ihl.ofLine.congr (collect_asBoolean skipsPlain_slots? hl) (collect_asBoolean skipsPlain_access? hl)
      have hright : t.Lays u [] right.accesses r.blockSlots r.accesses :=
        ihr.congr (collect_asBoolean skipsPlain_slots? hr) (collect_asBoolean skipsPlain_access? hr)
      exact (hleft.trans hright).congr (collect_pair skipsPlain_slots? rfl rfl)
        (collect_pair skipsPlain_access? rfl rfl)
  | cast _ hd ih =>
      exact ih.ofLine.congr (collect_castTo skipsPlain_slots? hd) (collect_castTo skipsPlain_access? hd)
  | stepBefore hr _ =>
      rw [blockSlots_stepSlot, accesses_stepSlot]
      exact (Lays.access hr).trans ((Lays.access hr).trans (.nothing rfl rfl))
  | @stepBehind op target s slot one hr _ =>
      simpa [Expr.accesses] using Lays.stepBehind hr op.line

mutual

theorem Stmt.Lowers.lays {stmt : Stmt} {s t : Lowering} {c : Code} :
    stmt.Lowers s c t → s.Lays t stmt.declarations stmt.accesses c.blockSlots c.accesses
  | .expression h => h.lays
  | .print h =>
      h.lays.congr (blockSlots_print _) (accesses_print _)
  | @Stmt.Lowers.declare type name s _ => by
      rw [blockSlots_storeTo, accesses_storeTo, blockSlots_ofValue, accesses_ofValue]
      exact .declared s name type
  | @Stmt.Lowers.declareInit type name e s t c d _ h hd => by
      rw [blockSlots_storeTo, accesses_storeTo]
      have hvalue := h.lays.congr (collect_asStored skipsPlain_slots? hd)
        (collect_asStored skipsPlain_access? hd)
      exact (Lays.declared s name type).trans hvalue
  | .block h ht => by
      rw [blockSlots_ofBlock, accesses_ofBlock]
      exact h.lays.close ht

/-- Lowering statements lays out the variables they declare and the accesses they
make. -/
theorem Stmt.LowersAll.lays {stmts : List Stmt} {s t : Lowering} {codes : List Code} :
    Stmt.LowersAll stmts s codes t →
      s.Lays t (Stmt.allDeclarations stmts) (Stmt.allAccesses stmts) (codes.flatMap blockSlots)
        (codes.flatMap Code.accesses)
  | .nil s => .nothing rfl rfl
  | .cons h hrest => h.lays.trans hrest.lays

end

/-! ### Programs -/

/-- How the slots of a lowered program are shared out. -/
structure Lowered.SlotLayout (program : List Stmt) (p : Lowered) : Prop where
  /-- The blocks together declare every slot below the count exactly once. -/
  exactly : (p.root.blockSlots.flatten.map Slot.index).Perm (List.range p.slotCount)
  /-- No two blocks declare the same slot. -/
  disjoint : p.root.blockSlots.Pairwise fun a b => ∀ x ∈ a, ∀ y ∈ b, x.index ≠ y.index
  /-- Each block declares its slots in increasing order, in whatever order the
  entries of its frame are listed before they are sorted. -/
  increasing : ∀ slots ∈ p.root.blockSlots, Frame.Increasing slots ∧
    ∀ entries : Frame, entries.Perm slots → entries.sorted = slots
  /-- A slot that a node reads or writes is declared by a block around it. -/
  declared : ∀ blocks node slot, p.root.Under blocks node → node.access? = some slot →
    ∃ slots ∈ blocks, slot ∈ slots
  /-- The slots alive at a node, which are those of the blocks around it, differ. -/
  alive : ∀ blocks node, p.root.Under blocks node → (blocks.flatten.map Slot.index).Nodup
  /-- There is one slot for each declared variable, the others are temporaries,
  and each access of the program goes to a slot of its own kind. -/
  apart : ∃ vars temps, (vars ++ temps).Perm p.root.blockSlots.flatten ∧
    vars.map Slot.declaration = Stmt.allDeclarations program ∧
    (∀ temp ∈ temps, temp.name = "temp") ∧
    (∀ v ∈ vars, ∀ temp ∈ temps, v.index ≠ temp.index) ∧
    List.Forall₂ (Access.Goes vars temps) (Stmt.allAccesses program) p.root.accesses

theorem Code.blockSlots_disjoint {c : Code} (h : (c.blockSlots.flatten.map Slot.index).Nodup) :
    c.blockSlots.Pairwise fun a b => ∀ x ∈ a, ∀ y ∈ b, x.index ≠ y.index := by
  rw [List.map_flatten, List.nodup_flatten, List.pairwise_map] at h
  refine h.2.imp ?_
  intro a b hab x hx y hy heq
  exact hab (List.mem_map_of_mem hx) (heq ▸ List.mem_map_of_mem hy)

/-- Whatever program is lowered, its slots are laid out in this way. -/
theorem lower_slotLayout {program : List Stmt} {p : Lowered} (h : lower program = .ok p) :
    p.SlotLayout program := by
  obtain ⟨layout, _, hcode⟩ := lower_wellTyped h
  obtain ⟨codes, t, added, hl, ht, rfl⟩ := lower_eq_ok_iff.mp h
  obtain ⟨added', vars, temps, hgives, hvars, hgoes⟩ := hl.lays
  have hframe : added' = added := congrArg Scope.globals (hgives.scope.symm.trans ht)
  subst hframe
  rw [show start.scope.slots = [] from rfl, List.append_nil] at hgoes
  have hblocks := blockSlots_ofBlock 1 (Frame.sorted added') codes
  have hslots : (ofBlock (Frame.sorted added') codes 1).blockSlots.flatten.Perm (vars ++ temps) := by
    rw [hblocks, List.flatten_cons]
    exact ((Frame.sorted_perm added').append_right _).trans hgives.split
  have hexactly : ((ofBlock (Frame.sorted added') codes 1).blockSlots.flatten.map Slot.index).Perm
      (List.range t.slotCount) := by
    have hcount : t.slotCount = (vars ++ temps).length := by
      rw [hgives.count]
      exact Nat.zero_add _
    rw [hcount, List.range_eq_range']
    exact (hslots.map Slot.index).trans hgives.indices
  have hnodup := hexactly.nodup_iff.mpr List.nodup_range
  have hvarsTemps : ∀ v ∈ vars, ∀ temp ∈ temps, v.index ≠ temp.index := by
    have hall := hgives.nodup
    rw [List.map_append, List.nodup_append] at hall
    intro v hv temp htemp
    exact hall.2.2 _ (List.mem_map_of_mem hv) _ (List.mem_map_of_mem htemp)
  refine ⟨hexactly, blockSlots_disjoint hnodup, ?_, ?_, ?_,
    vars, temps, hslots.symm, hvars, hgives.named, hvarsTemps, ?_⟩
  · intro slots hmem
    have hinc : Frame.Increasing slots := by
      rw [hblocks] at hmem
      rcases List.mem_cons.mp hmem with rfl | hinner
      · exact hgives.sorted_increasing
      · exact hgives.increasing slots hinner
    exact ⟨hinc, fun entries hperm => Frame.sorted_of_perm hinc hperm⟩
  · intro blocks node slot hunder hslot
    have hmem := (hunder.declared hslot hcode).resolve_right List.not_mem_nil
    exact List.mem_flatten.mp hmem
  · intro blocks node hunder
    exact hnodup.sublist (hunder.sublist.flatten.map Slot.index)
  · rw [accesses_ofBlock]
    exact hgoes

/-- `int temp; temp++; { long temp; temp--; }` -/
def steppedTemps : List Stmt :=
  let temp : Token := ⟨.identifier, "temp", 1, none⟩
  [.declare .int temp none, .expression (.step ⟨.increment, "++", 1, none⟩ temp false),
    .block [.declare .long temp none, .expression (.step ⟨.decrement, "--", 1, none⟩ temp false)]]

/-- The two variables and the two temporaries have the same name and four slots. -/
theorem lower_slotLayout_temps :
    ∃ p, lower steppedTemps = .ok p ∧ p.slotCount = 4 ∧
      p.root.blockSlots =
        [[⟨0, .int, "temp"⟩], [⟨1, .int, "temp"⟩], [⟨2, .long, "temp"⟩], [⟨3, .long, "temp"⟩]] ∧
      p.SlotLayout steppedTemps := by
  let step (x temp : Slot) (op : Token) (one : Value) : Code :=
    .ofBlock [temp] [.storeTo temp (.loadFrom x 1) 1, .stepSlot x op one, .loadFrom temp 1] 1
  have hlower : lower steppedTemps = .ok ⟨.ofBlock (Frame.sorted [⟨0, .int, "temp"⟩])
      [.storeTo ⟨0, .int, "temp"⟩ (.ofValue (.int 0) .int 1) 1,
        step ⟨0, .int, "temp"⟩ ⟨1, .int, "temp"⟩ ⟨.increment, "++", 1, none⟩ (.int 1),
        .ofBlock (Frame.sorted [⟨2, .long, "temp"⟩])
          [.storeTo ⟨2, .long, "temp"⟩ (.ofValue (.long 0) .long 1) 1,
            step ⟨2, .long, "temp"⟩ ⟨3, .long, "temp"⟩ ⟨.decrement, "--", 1, none⟩ (.long 1)] 1] 1,
      4⟩ := rfl
  refine ⟨_, hlower, rfl, ?_, lower_slotLayout hlower⟩
  simp [step, Frame.sorted]

end SlotScript
