import SlotScript.Proofs.Footprint
import SlotScript.Proofs.SlotLayout

/-! # Programs that go on

When a program goes on with further statements, what it did before stays the same.
Lowering treats the first statements as if nothing followed them, and gives the slots
of what follows higher numbers (`lower_append`).  The run of the longer program starts
from a machine with more slots, some of them set to default values beforehand; none of
these is touched by the first statements, so they run as they do alone
(`Lowered.GoesOn.invoke`), and what follows only appends to the output.

The main statement is `lower_append_stable`. -/

namespace SlotScript

open Code Lowering

/-! ### Lowering the first statements -/

theorem Stmt.LowersAll.split {before behind : List Stmt} {s u : Lowering} {codes : List Code}
    (h : Stmt.LowersAll (before ++ behind) s codes u) :
    ∃ first rest t, codes = first ++ rest ∧ Stmt.LowersAll before s first t ∧
      Stmt.LowersAll behind t rest u := by
  induction before generalizing s codes with
  | nil => exact ⟨[], codes, s, rfl, .nil s, h⟩
  | cons stmt before ih =>
      cases h with
      | cons hstmt hrest =>
          obtain ⟨first, rest, t, rfl, hbefore, hbehind⟩ := ih hrest
          exact ⟨_ :: first, rest, t, rfl, .cons hstmt hbefore, hbehind⟩

/-- Slots that are given out later have higher numbers. -/
theorem Lowering.Gives.index_between {s t : Lowering} {added vars temps : List Slot}
    {blocks : List (List Slot)} (h : s.Gives t added vars temps blocks) {slot : Slot}
    (hslot : slot ∈ vars ++ temps) : s.slotCount ≤ slot.index ∧ slot.index < t.slotCount := by
  have hmem := h.indices.mem_iff.mp (List.mem_map_of_mem hslot)
  rw [List.mem_range'_1] at hmem
  have hcount := h.count
  omega

theorem Access.Goes.mem_of_forall {vars temps : List Slot} {as : List Access} {used : List Slot}
    (h : List.Forall₂ (Access.Goes vars temps) as used) : used ⊆ vars ++ temps := by
  induction h with
  | nil => exact List.nil_subset _
  | cons hgoes _ ih =>
      refine List.cons_subset.mpr ⟨?_, ih⟩
      cases hgoes with
      | named hslot => exact List.mem_append_left _ hslot
      | temporary hslot => exact List.mem_append_right _ hslot

/-- The code of a program touches only slots that were given out for it. -/
theorem Stmt.LowersAll.staysIn {stmts : List Stmt} {t : Lowering} {codes : List Code}
    (h : Stmt.LowersAll stmts .start codes t) : ∀ c ∈ codes, c.StaysIn (·.index < t.slotCount) := by
  obtain ⟨added, vars, temps, hgives, -, hgoes⟩ := h.lays
  rw [show start.scope.slots = [] from rfl, List.append_nil] at hgoes
  have hgiven : ∀ slot ∈ vars ++ temps, slot.index < t.slotCount :=
    fun slot hslot => (hgives.index_between hslot).2
  intro c hc slot hslot
  rcases List.mem_append.mp hslot with hblock | haccess
  · apply hgiven
    apply hgives.split.mem_iff.mp
    apply List.mem_append_right
    obtain ⟨slots, hslots, hin⟩ := List.mem_flatten.mp hblock
    have hslots : slots ∈ codes.flatMap blockSlots := List.mem_flatMap.mpr ⟨c, hc, hslots⟩
    exact List.mem_flatten.mpr ⟨slots, hslots, hin⟩
  · apply hgiven
    exact Access.Goes.mem_of_forall hgoes (List.mem_flatMap.mpr ⟨c, hc, haccess⟩)

theorem Frame.sorted_append {f g : Frame} (hf : Increasing f.sorted) (hg : Increasing g.sorted)
    (hlt : ∀ a ∈ f, ∀ b ∈ g, a.index < b.index) : sorted (f ++ g) = f.sorted ++ g.sorted := by
  apply sorted_of_perm
  · refine List.pairwise_append.mpr ⟨hf, hg, ?_⟩
    intro a ha b hb
    exact hlt a (mem_sorted.mp ha) b (mem_sorted.mp hb)
  · exact ((sorted_perm f).append (sorted_perm g)).symm

/-- The program `whole` starts with the code `body` of `p` and goes on with `rest`.  It
declares the further slots `more`, which `p` does not have. -/
structure Lowered.GoesOn (p whole : Lowered) (slots more : List Slot) (body rest : List Code) :
    Prop where
  root : p.root = .ofBlock slots body 1
  wholeRoot : whole.root = .ofBlock (slots ++ more) (body ++ rest) 1
  count_le : p.slotCount ≤ whole.slotCount
  below : ∀ slot ∈ slots, slot.index < p.slotCount
  beyond : ∀ slot ∈ more, p.slotCount ≤ slot.index ∧ slot.index < whole.slotCount
  staysIn : ∀ c ∈ body, c.StaysIn (·.index < p.slotCount)

/-- The first statements of a program are lowered as if they were all of it. -/
theorem lower_append {before behind : List Stmt} {whole : Lowered}
    (h : lower (before ++ behind) = .ok whole) :
    ∃ p slots more body rest, lower before = .ok p ∧ p.GoesOn whole slots more body rest := by
  obtain ⟨codes, u, all, hl, hu, rfl⟩ := lower_eq_ok_iff.mp h
  obtain ⟨body, rest, t, rfl, hbefore, hbehind⟩ := hl.split
  obtain ⟨added, vars, temps, hgives, -, -⟩ := hbefore.lays
  obtain ⟨further, vars', temps', hgives', -, -⟩ := hbehind.lays
  have ht : t.scope = ⟨added, []⟩ := hgives.scope
  have hall : all = added ++ further := by
    have hscope := hu.symm.trans hgives'.scope
    rw [ht] at hscope
    exact congrArg Scope.globals hscope
  have hbelow : ∀ slot ∈ added, slot.index < t.slotCount := fun slot hslot =>
    (hgives.index_between (List.mem_append_left _ (hgives.added_subset hslot))).2
  have hbeyond : ∀ slot ∈ further, t.slotCount ≤ slot.index ∧ slot.index < u.slotCount :=
    fun slot hslot => hgives'.index_between (List.mem_append_left _ (hgives'.added_subset hslot))
  have hsorted : Frame.sorted all = Frame.sorted added ++ Frame.sorted further := by
    rw [hall]
    apply Frame.sorted_append hgives.sorted_increasing hgives'.sorted_increasing
    intro a ha b hb
    have hlow := hbelow a ha
    have hhigh := (hbeyond b hb).1
    omega
  refine ⟨_, Frame.sorted added, Frame.sorted further, body, rest,
    lower_eq_ok_iff.mpr ⟨body, t, added, hbefore, ht, rfl⟩, rfl, ?_, ?_, ?_, ?_, hbefore.staysIn⟩
  · rw [hsorted]
  · have hcount := hgives'.count
    show t.slotCount ≤ u.slotCount
    omega
  · exact fun slot hslot => hbelow slot (Frame.mem_sorted.mp hslot)
  · exact fun slot hslot => hbeyond slot (Frame.mem_sorted.mp hslot)

/-! ### Running the first statements -/

/-- Runs the code of a program from the start, without printing its value at the end. -/
def Lowered.invoke (p : Lowered) (sink : Sink) : Except Failure Value × Machine :=
  p.root.run.run (.start p.slotCount sink)

theorem Code.runBody_append (last : Value) (before behind : List Code) :
    Code.runBody last (before ++ behind) =
      Code.runBody last before >>= fun v => Code.runBody v behind := by
  induction before generalizing last with
  | nil => rfl
  | cons c before ih =>
      rw [List.cons_append, Code.runBody, Code.runBody, Attempt.bind_assoc]
      simp only [ih]

theorem Code.ofBlock_run {slots : List Slot} {m : Machine}
    (h : ∀ slot ∈ slots, slot.index < m.slots.size) (body : List Code) (line : Nat) :
    (ofBlock slots body line).run.run m = (Code.runBody .unit body).run (m.reset slots) := by
  rw [ofBlock, Code.run, Attempt.bind_of_ok (Machine.resetAll_run h)]

/-- Before the first statement, the machines agree on the slots of the shorter program. -/
theorem Machine.AgreeOn.start {n k : Nat} (h : n ≤ k) (sink : Sink) :
    (Machine.start n sink).AgreeOn (· < n) (Machine.start k sink) where
  sink := rfl
  slots := by
    intro i hi
    have hi' : i < k := by omega
    simp [Machine.start, hi, hi']

theorem Machine.AgreeOn.resetBeyond {S : Nat → Prop} {m m' : Machine} (h : m.AgreeOn S m')
    {more : List Slot} (hmore : ∀ slot ∈ more, ¬S slot.index) : m.AgreeOn S (m'.reset more) where
  sink := by rw [reset_sink, h.sink]
  slots := by
    intro i hi
    rw [get_reset_of_ne, h.slots i hi]
    intro slot hslot heq
    exact hmore slot hslot (heq ▸ hi)

/-- Both programs run the code of the shorter one, from machines that agree on its
slots. -/
theorem Lowered.GoesOn.invoke {p whole : Lowered} {slots more : List Slot} {body rest : List Code}
    (h : p.GoesOn whole slots more body rest) (sink : Sink) :
    ∃ m m' : Machine, m.AgreeOn (· < p.slotCount) m' ∧
      p.invoke sink = (Code.runBody .unit body).run m ∧
      whole.invoke sink =
        (Code.runBody .unit body >>= fun v => Code.runBody v rest).run m' := by
  have hfirst : ∀ slot ∈ slots, slot.index < (Machine.start p.slotCount sink).slots.size := by
    intro slot hslot
    simp only [Machine.start, Array.size_replicate]
    exact h.below slot hslot
  have hall : ∀ slot ∈ slots ++ more,
      slot.index < (Machine.start whole.slotCount sink).slots.size := by
    intro slot hslot
    simp only [Machine.start, Array.size_replicate]
    have hle := h.count_le
    rcases List.mem_append.mp hslot with hin | hin
    · have hbelow := h.below slot hin
      omega
    · exact (h.beyond slot hin).2
  have hagree := (Machine.AgreeOn.start h.count_le sink).reset slots
  have hbeyond : ∀ slot ∈ more, ¬slot.index < p.slotCount := by
    intro slot hslot
    have hge := (h.beyond slot hslot).1
    omega
  refine ⟨_, _, hagree.resetBeyond hbeyond, ?_, ?_⟩
  · unfold Lowered.invoke
    rw [h.root, ofBlock_run hfirst]
  · unfold Lowered.invoke
    rw [h.wholeRoot, ofBlock_run hall, runBody_append]
    unfold Machine.reset
    rw [List.foldl_append]

/-- A program that can be lowered can be lowered without its last statements.  Its code
starts with the code of the others; its output starts with theirs; and if they fail,
it fails in the same way with the same output. -/
theorem lower_append_stable {before behind : List Stmt} {whole : Lowered}
    (h : lower (before ++ behind) = .ok whole) :
    ∃ p, lower before = .ok p ∧
      (∃ slots body note slots' rest note', p.root = .block slots body note ∧
        whole.root = .block slots' (body ++ rest) note') ∧
      ∀ sink : Sink,
        (∃ more, (whole.invoke sink).2.sink.written = (p.invoke sink).2.sink.written ++ more) ∧
        ∀ failure, (p.invoke sink).1 = .error failure →
          (whole.invoke sink).1 = .error failure ∧
            (whole.invoke sink).2.sink = (p.invoke sink).2.sink := by
  obtain ⟨p, slots, more, body, rest, hp, hon⟩ := lower_append h
  refine ⟨p, hp, ⟨_, _, _, _, _, _, hon.root, hon.wholeRoot⟩, fun sink => ?_⟩
  obtain ⟨m, m', hagree, hfirst, hwhole⟩ := hon.invoke sink
  obtain ⟨hresult, hleft⟩ := (Alike.steps _).runBody .unit hon.staysIn m m' hagree
  rw [hfirst, hwhole]
  cases hrun : (Code.runBody .unit body).run m' with
  | mk r left =>
      rw [hrun] at hresult hleft
      cases r with
      | error e =>
          rw [Attempt.bind_of_error hrun, hresult, hleft.sink]
          exact ⟨⟨.empty, ByteArray.append_empty.symm⟩, fun failure hf => ⟨hf, rfl⟩⟩
      | ok v =>
          rw [Attempt.bind_of_ok hrun, hresult, hleft.sink]
          refine ⟨Appends.steps.runBody v (fun _ _ _ _ => trivial) left, ?_⟩
          intro failure hf
          cases hf

/-- `int x = 1; print x; x / 0;` -/
def dividing : List Stmt :=
  let x : Token := ⟨.identifier, "x", 1, none⟩
  [.declare .int x (some (.literal (.int 1))), .print (.var x),
    .expression (.binary (.var x) ⟨.slash, "/", 2, none⟩ (.literal (.int 0)))]

/-- `long y = 2; print y;` -/
def goingOn : List Stmt :=
  let y : Token := ⟨.identifier, "y", 3, none⟩
  [.declare .long y (some (.literal (.int 2))), .print (.var y)]

/-- The second program is accepted behind the first, and never reached. -/
theorem lower_append_stable_division :
    ∃ whole p, lower (dividing ++ goingOn) = .ok whole ∧ lower dividing = .ok p ∧
      whole.slotCount = 2 ∧ p.slotCount = 1 ∧
      (whole.invoke .unlimited).1 = .error ⟨some 2, .value .divisionByZero⟩ ∧
      (whole.invoke .unlimited).2.sink = (p.invoke .unlimited).2.sink := by
  have hwhole : ∃ whole, lower (dividing ++ goingOn) = .ok whole ∧ whole.slotCount = 2 :=
    ⟨_, rfl, rfl⟩
  obtain ⟨whole, hlower, hcount⟩ := hwhole
  obtain ⟨p, hp, -, hrun⟩ := lower_append_stable hlower
  have hfirst : p.slotCount = 1 ∧
      (p.invoke .unlimited).1 = .error ⟨some 2, .value .divisionByZero⟩ := by
    have hsorted : Frame.sorted [⟨0, .int, "x"⟩] = [⟨0, .int, "x"⟩] := by simp [Frame.sorted]
    have hroot : p = ⟨.ofBlock (Frame.sorted [⟨0, .int, "x"⟩])
        [.storeTo ⟨0, .int, "x"⟩ (.ofValue (.int 1) .int 1) 1,
          .print (.loadFrom ⟨0, .int, "x"⟩ 1) ⟨none, 1⟩,
          .binary (.arithmetic .divide) (.loadFrom ⟨0, .int, "x"⟩ 1)
            (.ofValue (.int 0) .int 1) ⟨some .int, 2⟩] 1, 1⟩ := (Except.ok.inj hp).symm
    rw [hroot, hsorted]
    exact ⟨rfl, rfl⟩
  obtain ⟨hfailure, hsink⟩ := (hrun .unlimited).2 _ hfirst.2
  exact ⟨whole, p, hlower, hp, hcount, hfirst.1, hfailure, hsink⟩

end SlotScript
