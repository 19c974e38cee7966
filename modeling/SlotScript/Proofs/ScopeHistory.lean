import SlotScript.Proofs.SlotLayout

/-! # Scopes and the calls made on them

A scope is a stack of frames.  Here it is compared with the plain list of the calls made
on it and their answers (`Scope.History`), which has no frames: call number `i` was made
with `depth i` blocks open, and what it declared stands as long as there have never been
fewer since.

One call keeps every frame equal to the declarations that stand at its depth
(`Scope.Reflects.call`), so this is true after any calls on a new scope
(`Scope.reflects_after`).  The main statement is `Scope.after_answersBy_history`: each
answer can be read off the history. -/

namespace SlotScript

namespace Scope

/-! ### Calls and their history -/

/-- A call on a scope. -/
inductive Call where
  | push
  | pop
  | declare (slot : Slot)
  | resolve (name : String)
deriving DecidableEq, Repr

/-- What a call gives back. -/
inductive Answer where
  | pushed
  | popped (frame : Option Frame)
  | declared (result : Except LowerFault Unit)
  | resolved (result : Except LowerFault Slot)

/-- The answer to a call, and the scope after it. -/
def call (s : Scope) : Call → Answer × Scope
  | .push => (.pushed, s.push)
  | .pop => (.popped s.pop.1, s.pop.2)
  | .declare slot =>
    match s.declare slot with
    | .ok t => (.declared (.ok ()), t)
    | .error fault => (.declared (.error fault), s)
  | .resolve name => (.resolved (s.resolve name), s)

/-- Calls in the order in which they were made, each with its answer. -/
abbrev History := List (Call × Answer)

/-- Makes calls one after the other. -/
def calls (s : Scope) : List Call → History × Scope
  | [] => ([], s)
  | c :: rest =>
    let (answer, t) := s.call c
    let (h, u) := t.calls rest
    ((c, answer) :: h, u)

/-- The history of calls on a new scope. -/
def history (cs : List Call) : History := (empty.calls cs).1

/-- A new scope after calls on it. -/
def after (cs : List Call) : Scope := (empty.calls cs).2

/-- The number of open blocks after a call, when there were `d` before.  Without an open
block there is nothing to close. -/
def Call.depth (d : Nat) : Call → Nat
  | .push => d + 1
  | .pop => d - 1
  | .declare _ | .resolve _ => d

/-- The slot that a call with its answer has declared. -/
def declaredBy? : Call × Answer → Option Slot
  | (.declare slot, .declared (.ok _)) => some slot
  | _ => none

namespace History

/-- The number of open blocks after the first `i` calls. -/
def depth (h : History) (i : Nat) : Nat := (h.take i).foldl (fun d entry => entry.1.depth d) 0

/-- The slot that call number `i` has declared. -/
def declared? (h : History) (i : Nat) : Option Slot := h[i]?.bind declaredBy?

/-- The frame that was innermost at call number `i` has not been closed since: there
have never been fewer open blocks. -/
def StaysOpen (h : History) (i : Nat) : Prop := ∀ j ≤ h.length, i ≤ j → h.depth i ≤ h.depth j

instance (h : History) (i : Nat) : Decidable (h.StaysOpen i) :=
  inferInstanceAs (Decidable (∀ j ≤ h.length, i ≤ j → h.depth i ≤ h.depth j))

/-- The slot that call number `i` has declared, if its frame is still open. -/
def standing? (h : History) (i : Nat) : Option Slot :=
  if h.StaysOpen i then h.declared? i else none

/-- The declarations that stand in the frame with `d` frames around it, in the order in
which they were made. -/
def standingAt (h : History) (d : Nat) : List Slot :=
  (List.range h.length).filterMap fun i => if h.depth i = d then h.standing? i else none

/-- The declarations that stand in the innermost frame. -/
def innermost (h : History) : List Slot := h.standingAt (h.depth h.length)

/-- The declarations made while no block was open, in the order in which they were made. -/
def globals (h : History) : List Slot :=
  (List.range h.length).filterMap fun i => if h.depth i = 0 then h.declared? i else none

/-- The slot is the one declared last among those that have the name and still stand. -/
def Latest (h : History) (name : String) (slot : Slot) : Prop :=
  ∃ i, h.standing? i = some slot ∧ slot.name = name ∧
    ∀ j other, i < j → h.standing? j = some other → other.name ≠ name

/-- All slots that were declared, in the order in which they were. -/
def declarations (h : History) : List Slot := h.filterMap declaredBy?

variable {h : History} {entry : Call × Answer} {i j d : Nat} {slot : Slot}

theorem lt_length_of_declared (hi : h.declared? i = some slot) : i < h.length := by
  obtain ⟨entry, hentry, -⟩ := Option.bind_eq_some_iff.mp hi
  exact (List.getElem?_eq_some_iff.mp hentry).1

theorem standing_eq_some :
    h.standing? i = some slot ↔ h.StaysOpen i ∧ h.declared? i = some slot := by
  unfold standing?
  split
  · simp [*]
  · simp [*]

theorem mem_standingAt :
    slot ∈ h.standingAt d ↔ ∃ i, h.standing? i = some slot ∧ h.depth i = d := by
  simp only [standingAt, List.mem_filterMap, List.mem_range]
  constructor
  · rintro ⟨i, -, hi⟩
    split at hi
    · exact ⟨i, hi, by assumption⟩
    · cases hi
  · rintro ⟨i, hi, hd⟩
    have hlt : i < h.length := lt_length_of_declared (standing_eq_some.mp hi).2
    exact ⟨i, hlt, by rw [if_pos hd, hi]⟩

/-- Of two declarations that stand, the later one has at least as many blocks around it. -/
theorem depth_le_of_standing {other : Slot} (hij : i ≤ j) (hi : h.standing? i = some slot)
    (hj : h.standing? j = some other) : h.depth i ≤ h.depth j := by
  have hopen := (standing_eq_some.mp hi).1
  have hlt := lt_length_of_declared (standing_eq_some.mp hj).2
  exact hopen j (by omega) hij

/-- The globals are never closed. -/
theorem standingAt_zero : h.standingAt 0 = h.globals := by
  unfold standingAt globals
  congr 1
  funext i
  by_cases hi : h.depth i = 0
  · have hopen : h.StaysOpen i := by
      intro j _ _
      omega
    simp [hi, standing?, hopen]
  · simp [hi]

/-! ### One more call -/

theorem depth_append (hi : i ≤ h.length) : depth (h ++ [entry]) i = h.depth i := by
  unfold depth
  rw [List.take_append_of_le_length hi]

theorem depth_last : depth (h ++ [entry]) (h.length + 1) = entry.1.depth (h.depth h.length) := by
  have hall : (h ++ [entry]).take (h.length + 1) = h ++ [entry] := by
    apply List.take_of_length_le
    simp
  simp [depth, hall]

theorem declared_append (hi : i < h.length) : declared? (h ++ [entry]) i = h.declared? i := by
  unfold declared?
  rw [List.getElem?_append_left hi]

theorem staysOpen_append (hi : i ≤ h.length) :
    StaysOpen (h ++ [entry]) i ↔ h.StaysOpen i ∧ h.depth i ≤ entry.1.depth (h.depth h.length) := by
  have hlength : (h ++ [entry]).length = h.length + 1 := by simp
  constructor
  · intro hopen
    constructor
    · intro j hj hij
      have hle := hopen j (by omega) hij
      rw [depth_append hi, depth_append hj] at hle
      exact hle
    · have hle := hopen (h.length + 1) (by omega) (by omega)
      rw [depth_append hi, depth_last] at hle
      exact hle
  · rintro ⟨hopen, hlast⟩ j hj hij
    by_cases hend : j = h.length + 1
    · rw [hend, depth_append hi, depth_last]
      exact hlast
    · have hj : j ≤ h.length := by omega
      rw [depth_append hi, depth_append hj]
      exact hopen j hj hij

/-- What a call declares stands, since it closes no frame. -/
theorem standing_last : standing? (h ++ [entry]) h.length = declaredBy? entry := by
  have hdeclared : declared? (h ++ [entry]) h.length = declaredBy? entry := by
    simp [declared?]
  obtain ⟨c, answer⟩ := entry
  cases hslot : declaredBy? (c, answer) with
  | none => simp [standing?, hdeclared, hslot]
  | some slot =>
      have hdepth : c.depth (h.depth h.length) = h.depth h.length := by
        cases c with
        | declare _ => rfl
        | _ => simp [declaredBy?] at hslot
      rw [standing_eq_some, hdeclared, staysOpen_append (Nat.le_refl _)]
      refine ⟨⟨?_, Nat.le_of_eq hdepth.symm⟩, hslot⟩
      intro j hj hij
      have heq : j = h.length := by omega
      simp [heq]

/-- A call closes the frames that are deeper than what it leaves open, and adds what it
declares to the innermost frame. -/
theorem standingAt_append :
    standingAt (h ++ [entry]) d =
      (if d ≤ entry.1.depth (h.depth h.length) then h.standingAt d else []) ++
        (if d = h.depth h.length then (declaredBy? entry).toList else []) := by
  have hlength : (h ++ [entry]).length = h.length + 1 := by simp
  unfold standingAt
  rw [hlength, List.range_succ, List.filterMap_append]
  congr 1
  · split
    · apply List.filterMap_congr
      intro i hi
      have hi : i < h.length := List.mem_range.mp hi
      rw [depth_append (by omega)]
      by_cases hd : h.depth i = d
      · have hopen : StaysOpen (h ++ [entry]) i ↔ h.StaysOpen i := by
          rw [staysOpen_append (by omega), hd]
          simp [*]
        simp [hd, standing?, hopen, declared_append hi]
      · simp [hd]
    · apply List.filterMap_eq_nil_iff.mpr
      intro i hi
      have hi : i < h.length := List.mem_range.mp hi
      rw [depth_append (by omega)]
      by_cases hd : h.depth i = d
      · have hopen : ¬ StaysOpen (h ++ [entry]) i := by
          rw [staysOpen_append (by omega), hd]
          simp [*]
        simp [standing?, hopen]
      · simp [hd]
  · rw [List.filterMap_cons, List.filterMap_nil, depth_append (Nat.le_refl _), standing_last]
    by_cases hd : h.depth h.length = d
    · simp only [hd, if_true]
      cases declaredBy? entry with
      | none => rfl
      | some slot => rfl
    · have hne : ¬ d = h.depth h.length := fun heq => hd heq.symm
      simp [hd, hne]

end History

/-! ### Frames by depth -/

/-- The frame with `d` frames around it, where `frames` are listed from the inside out. -/
def frameAt : List Frame → Nat → Frame
  | [], _ => []
  | f :: outer, d => if d = outer.length then f else frameAt outer d

variable {s t : Scope} {frames : List Frame} {d : Nat} {name : String} {slot : Slot}

theorem frameAt_of_le (h : frames.length ≤ d) : frameAt frames d = [] := by
  induction frames with
  | nil => rfl
  | cons f outer ih =>
      rw [List.length_cons] at h
      have hne : ¬ d = outer.length := by omega
      rw [frameAt, if_neg hne]
      exact ih (by omega)

theorem frameAt_globals : frameAt s.frames 0 = s.globals := by
  obtain ⟨globals, blocks⟩ := s
  show frameAt (blocks ++ [globals]) 0 = globals
  induction blocks with
  | nil => rfl
  | cons f rest ih =>
      have hne : ¬ 0 = (rest ++ [globals]).length := by simp
      rw [List.cons_append, frameAt, if_neg hne]
      exact ih

theorem frameAt_current : frameAt s.frames s.blocks.length = s.current := by
  obtain ⟨globals, blocks⟩ := s
  cases blocks with
  | nil => rfl
  | cons f rest => simp [frames, frameAt, current]

theorem frameAt_push : frameAt s.push.frames d = frameAt s.frames d := by
  rw [frames_push, frameAt]
  split
  · rw [frameAt_of_le (by omega)]
  · rfl

theorem frameAt_grow (added : List Slot) :
    frameAt (s.grow added).frames d =
      frameAt s.frames d ++ (if d = s.blocks.length then added else []) := by
  have hlength : s.frames.length = s.blocks.length + 1 := by simp [frames]
  obtain ⟨outer, hframes, hgrow⟩ := s.frames_grow
  rw [hframes, List.length_cons] at hlength
  have houter : outer.length = s.blocks.length := by omega
  rw [hgrow, hframes, frameAt, frameAt, houter]
  by_cases hd : d = s.blocks.length
  · simp [hd]
  · simp [hd]

theorem frameAt_pop {f : Frame} {rest : List Frame} (h : s.blocks = f :: rest) :
    frameAt s.pop.2.frames d = if d ≤ rest.length then frameAt s.frames d else [] := by
  obtain ⟨globals, blocks⟩ := s
  obtain rfl : blocks = f :: rest := h
  show frameAt (rest ++ [globals]) d =
    if d ≤ rest.length then frameAt (f :: (rest ++ [globals])) d else []
  rw [frameAt, List.length_append, List.length_singleton]
  split
  · have hne : ¬ d = rest.length + 1 := by omega
    rw [if_neg hne]
  · apply frameAt_of_le
    simp only [List.length_append, List.length_singleton]
    omega

section lookup

variable {f : Frame} {outer : List Frame}

theorem frameAt_self : frameAt (f :: outer) outer.length = f := by
  simp [frameAt]

theorem lookup_frameAt_cons (hf : f.lookup name = none) :
    (frameAt (f :: outer) d).lookup name = (frameAt outer d).lookup name := by
  rw [frameAt]
  split
  · rw [hf, frameAt_of_le (by omega)]
    rfl
  · rfl

/-- A name is looked up in the deepest frame that has it. -/
theorem findSome_eq_some :
    frames.findSome? (·.lookup name) = some slot ↔
      ∃ d, (frameAt frames d).lookup name = some slot ∧
        ∀ e, d < e → (frameAt frames e).lookup name = none := by
  induction frames with
  | nil => simp [frameAt, Frame.lookup]
  | cons f outer ih =>
      rw [List.findSome?_cons]
      cases hf : f.lookup name with
      | none =>
          simp only [lookup_frameAt_cons hf]
          exact ih
      | some found =>
          have hown : (frameAt (f :: outer) outer.length).lookup name = some found := by
            rw [frameAt_self, hf]
          have hdeeper : ∀ e, outer.length < e → (frameAt (f :: outer) e).lookup name = none := by
            intro e he
            rw [frameAt_of_le he]
            rfl
          constructor
          · intro heq
            exact ⟨outer.length, hown.trans heq, hdeeper⟩
          · rintro ⟨d, hd, hnone⟩
            have hge : ¬ d < outer.length := by
              intro hlt
              rw [hnone _ hlt] at hown
              cases hown
            have hle : ¬ outer.length < d := by
              intro hlt
              rw [hdeeper d hlt] at hd
              cases hd
            have heq : d = outer.length := by omega
            rw [heq, hown] at hd
            exact hd

theorem findSome_eq_none :
    frames.findSome? (·.lookup name) = none ↔ ∀ d, (frameAt frames d).lookup name = none := by
  induction frames with
  | nil => simp [frameAt, Frame.lookup]
  | cons f outer ih =>
      rw [List.findSome?_cons]
      cases hf : f.lookup name with
      | none =>
          simp only [lookup_frameAt_cons hf]
          exact ih
      | some found =>
          have hown : (frameAt (f :: outer) outer.length).lookup name = some found := by
            rw [frameAt_self, hf]
          constructor
          · intro hnone
            cases hnone
          · intro hnone
            rw [hnone] at hown
            cases hown

end lookup

end Scope

namespace Frame

variable {f : Frame} {name : String} {slot : Slot}

theorem lookup_eq_none : f.lookup name = none ↔ name ∉ f.map Slot.name := by
  unfold lookup
  rw [List.find?_eq_none]
  simp

theorem lookup_of_mem (hdistinct : (f.map Slot.name).Nodup) (hslot : slot ∈ f) :
    f.lookup slot.name = some slot := by
  cases hfound : f.lookup slot.name with
  | none =>
      have hmiss := lookup_eq_none.mp hfound
      exact absurd (List.mem_map_of_mem hslot) hmiss
  | some other =>
      have hname := name_of_lookup hfound
      have hother := mem_of_lookup hfound
      rw [List.inj_on_of_nodup_map hdistinct hother hslot hname]

end Frame

namespace Scope

/-! ### Histories and scopes -/

theorem call_declare (s : Scope) (slot : Slot) :
    s.call (.declare slot) =
      if slot.name ∈ s.current.map Slot.name then
        (.declared (.error (.duplicateDeclaration slot.name)), s)
      else (.declared (.ok ()), s.grow [slot]) := by
  have hlookup : s.current.lookup slot.name = none ↔ _ := Frame.lookup_eq_none
  split
  · have hdeclare : s.declare slot = .error (.duplicateDeclaration slot.name) := by
      rw [declare_eq_error, ne_eq, hlookup]
      simp [*]
    simp [call, hdeclare]
  · have hdeclare : s.declare slot = .ok (s.grow [slot]) := by
      rw [declare_eq_ok, hlookup]
      simp [*]
    simp [call, hdeclare]

/-- Every frame holds the declarations that stand at its depth, each under a name of its
own. -/
structure Reflects (h : History) (s : Scope) : Prop where
  depth : s.blocks.length = h.depth h.length
  frames : ∀ d, frameAt s.frames d = h.standingAt d
  distinct : ∀ d, ((h.standingAt d).map Slot.name).Nodup

namespace Reflects

variable {h : History} {s : Scope} {c : Call} {answer : Answer} {slot : Slot} {d : Nat}

theorem start : Reflects [] empty where
  depth := rfl
  frames := by
    intro d
    show frameAt [[]] d = []
    rw [frameAt]
    split
    · rfl
    · rfl
  distinct := fun _ => List.nodup_nil

theorem innermost (hr : Reflects h s) : h.innermost = s.current := by
  rw [History.innermost, ← hr.frames, ← hr.depth, frameAt_current]

/-- No declaration stands deeper than the innermost frame. -/
theorem standingAt_of_lt (hr : Reflects h s) (hd : h.depth h.length < d) :
    h.standingAt d = [] := by
  have hdepth := hr.depth
  rw [← hr.frames]
  apply frameAt_of_le
  simp only [Scope.frames, List.length_append, List.length_singleton]
  omega

/-- A call that declares nothing and closes nothing leaves the declarations as they are. -/
theorem standingAt_kept (hr : Reflects h s) (hnone : declaredBy? (c, answer) = none)
    (hdepth : h.depth h.length ≤ c.depth (h.depth h.length)) :
    History.standingAt (h ++ [(c, answer)]) d = h.standingAt d := by
  rw [History.standingAt_append, hnone]
  by_cases hd : d ≤ c.depth (h.depth h.length)
  · simp [hd]
  · rw [hr.standingAt_of_lt (by omega)]
    simp

theorem kept {t : Scope} (hr : Reflects h s) (hnone : declaredBy? (c, answer) = none)
    (hdepth : h.depth h.length ≤ c.depth (h.depth h.length))
    (ht : t.blocks.length = c.depth (h.depth h.length))
    (hframes : ∀ d, frameAt t.frames d = frameAt s.frames d) :
    Reflects (h ++ [(c, answer)]) t where
  depth := by
    rw [ht, List.length_append, List.length_singleton, History.depth_last]
  frames := by
    intro d
    rw [hframes, hr.frames, hr.standingAt_kept hnone hdepth]
  distinct := by
    intro d
    rw [hr.standingAt_kept hnone hdepth]
    exact hr.distinct d

theorem declared (hr : Reflects h s) (hfree : slot.name ∉ s.current.map Slot.name) :
    Reflects (h ++ [(.declare slot, .declared (.ok ()))]) (s.grow [slot]) := by
  have hstanding : ∀ d, History.standingAt (h ++ [(.declare slot, .declared (.ok ()))]) d =
      h.standingAt d ++ (if d = h.depth h.length then [slot] else []) := by
    intro d
    rw [History.standingAt_append]
    by_cases hd : d ≤ h.depth h.length
    · simp [Call.depth, declaredBy?, hd]
    · have hne : ¬ d = h.depth h.length := by omega
      rw [hr.standingAt_of_lt (by omega)]
      simp [hne]
  constructor
  · rw [List.length_append, List.length_singleton, History.depth_last]
    show (s.grow [slot]).blocks.length = h.depth h.length
    rw [← hr.depth]
    unfold grow
    cases s.blocks with
    | nil => rfl
    | cons f rest => rfl
  · intro d
    rw [frameAt_grow, hr.frames, hstanding, hr.depth]
  · intro d
    rw [hstanding]
    by_cases hd : d = h.depth h.length
    · have hfresh : slot.name ∉ (h.standingAt d).map Slot.name := by
        have hinner : h.standingAt d = s.current := by
          rw [hd]
          exact hr.innermost
        rw [hinner]
        exact hfree
      simp only [hd, if_true, List.map_append, List.map_cons, List.map_nil] at hfresh ⊢
      rw [List.nodup_append_comm]
      exact List.nodup_cons.mpr ⟨hfresh, hr.distinct _⟩
    · simp only [hd, if_false, List.append_nil]
      exact hr.distinct d

theorem popped {f : Frame} {rest : List Frame} (hr : Reflects h s) (hblocks : s.blocks = f :: rest)
    (answer : Answer) : Reflects (h ++ [(.pop, answer)]) s.pop.2 := by
  have hdepth : h.depth h.length = rest.length + 1 := by
    rw [← hr.depth, hblocks, List.length_cons]
  have hstanding : ∀ d, History.standingAt (h ++ [(.pop, answer)]) d =
      if d ≤ rest.length then h.standingAt d else [] := by
    intro d
    have hafter : Call.depth (h.depth h.length) .pop = rest.length := by
      rw [hdepth]
      rfl
    rw [History.standingAt_append, hafter]
    simp [declaredBy?]
  constructor
  · rw [List.length_append, List.length_singleton, History.depth_last, hdepth]
    simp [pop, hblocks, Call.depth]
  · intro d
    rw [frameAt_pop hblocks, hstanding, hr.frames]
  · intro d
    rw [hstanding]
    split
    · exact hr.distinct d
    · exact List.nodup_nil

/-- One call keeps the frames and the declarations that stand equal. -/
theorem call (hr : Reflects h s) (c : Call) : Reflects (h ++ [(c, (s.call c).1)]) (s.call c).2 := by
  cases c with
  | push =>
      refine hr.kept rfl (Nat.le_succ _) ?_ (fun _ => frameAt_push)
      simp [Scope.call, push, Call.depth, hr.depth]
  | pop =>
      cases hblocks : s.blocks with
      | nil =>
          have hdepth : h.depth h.length = 0 := by
            rw [← hr.depth, hblocks]
            rfl
          have hsame : (s.call .pop).2 = s := by simp [Scope.call, pop, hblocks]
          rw [hsame]
          refine hr.kept rfl (by rw [hdepth]; exact Nat.zero_le _) ?_ (fun _ => rfl)
          rw [hdepth, hblocks]
          rfl
      | cons f rest => exact hr.popped hblocks _
  | declare slot =>
      rw [call_declare]
      split
      · exact hr.kept rfl (Nat.le_refl _) hr.depth (fun _ => rfl)
      · exact hr.declared (by assumption)
  | resolve name => exact hr.kept rfl (Nat.le_refl _) hr.depth (fun _ => rfl)

theorem calls (hr : Reflects h s) (cs : List Call) :
    Reflects (h ++ (s.calls cs).1) (s.calls cs).2 := by
  induction cs generalizing h s with
  | nil => simpa [Scope.calls] using hr
  | cons c rest ih =>
      have hrest := ih (hr.call c)
      rw [List.append_assoc] at hrest
      exact hrest

end Reflects

theorem reflects_after (cs : List Call) : Reflects (history cs) (after cs) :=
  Reflects.start.calls cs

/-! ### Answers -/

/-- The scope answers each call as the history of the calls before it says. -/
structure AnswersBy (h : History) (s : Scope) : Prop where
  /-- A name means what was declared last under it and still stands. -/
  found : ∀ name slot,
    s.call (.resolve name) = (.resolved (.ok slot), s) ↔ h.Latest name slot
  /-- A name means nothing exactly when no declaration of it stands. -/
  missing : ∀ name,
    s.call (.resolve name) = (.resolved (.error (.undefinedVariable name)), s) ↔
      ∀ i slot, h.standing? i = some slot → slot.name ≠ name
  /-- A declaration is refused exactly when the innermost frame has the name, and then
  changes nothing. -/
  refused : ∀ slot,
    s.call (.declare slot) = (.declared (.error (.duplicateDeclaration slot.name)), s) ↔
      slot.name ∈ h.innermost.map Slot.name
  accepted : ∀ slot,
    (s.call (.declare slot)).1 = .declared (.ok ()) ↔ slot.name ∉ h.innermost.map Slot.name
  /-- Closing a block gives what stands in it, and leaves the other frames as they are. -/
  closed : 0 < h.depth h.length →
    ∃ t, s.call .pop = (.popped (some h.innermost), t) ∧
      s.blocks = h.innermost :: t.blocks ∧ t.globals = s.globals
  distinct : (h.innermost.map Slot.name).Nodup
  /-- The globals cannot be closed. -/
  unclosed : h.depth h.length = 0 → s.call .pop = (.popped none, s)

namespace Reflects

variable {h : History} {s : Scope} {name : String} {slot : Slot} {d i j : Nat}

theorem lookup_eq_some (hr : Reflects h s) :
    (frameAt s.frames d).lookup name = some slot ↔
      ∃ i, h.standing? i = some slot ∧ h.depth i = d ∧ slot.name = name := by
  rw [hr.frames]
  constructor
  · intro hfound
    obtain ⟨i, hi, hd⟩ := History.mem_standingAt.mp (Frame.mem_of_lookup hfound)
    exact ⟨i, hi, hd, Frame.name_of_lookup hfound⟩
  · rintro ⟨i, hi, hd, rfl⟩
    exact Frame.lookup_of_mem (hr.distinct d) (History.mem_standingAt.mpr ⟨i, hi, hd⟩)

theorem lookup_eq_none (hr : Reflects h s) :
    (frameAt s.frames d).lookup name = none ↔
      ∀ i slot, h.standing? i = some slot → h.depth i = d → slot.name ≠ name := by
  rw [hr.frames, Frame.lookup_eq_none]
  constructor
  · intro hmiss i slot hi hd heq
    apply hmiss
    rw [← heq]
    exact List.mem_map_of_mem (History.mem_standingAt.mpr ⟨i, hi, hd⟩)
  · intro hnone hmem
    obtain ⟨slot, hslot, heq⟩ := List.mem_map.mp hmem
    obtain ⟨i, hi, hd⟩ := History.mem_standingAt.mp hslot
    exact hnone i slot hi hd heq

/-- Two declarations that stand in one frame have different names. -/
theorem name_ne (hr : Reflects h s) {other : Slot} (hij : i < j)
    (hi : h.standing? i = some slot) (hj : h.standing? j = some other)
    (hdepth : h.depth i = h.depth j) : slot.name ≠ other.name := by
  have hnodup := hr.distinct (h.depth i)
  have hlt := History.lt_length_of_declared (History.standing_eq_some.mp hj).2
  rw [List.nodup_iff_pairwise_ne, List.pairwise_map, History.standingAt,
    List.pairwise_filterMap, List.pairwise_iff_getElem] at hnodup
  have hne := hnodup i j (by simp; omega) (by simpa using hlt) hij slot (by simp [hi]) other
    (by simp [hj, hdepth])
  exact hne

theorem resolve_eq_ok (hr : Reflects h s) : s.resolve name = .ok slot ↔ h.Latest name slot := by
  rw [Scope.resolve_eq_ok, findSome_eq_some]
  constructor
  · rintro ⟨d, hfound, hdeeper⟩
    obtain ⟨i, hi, hd, hname⟩ := hr.lookup_eq_some.mp hfound
    refine ⟨i, hi, hname, ?_⟩
    intro j other hij hj hother
    have hle := History.depth_le_of_standing (Nat.le_of_lt hij) hi hj
    by_cases heq : h.depth i = h.depth j
    · exact hr.name_ne hij hi hj heq (hname.trans hother.symm)
    · have hnone := hr.lookup_eq_none.mp (hdeeper (h.depth j) (by omega))
      exact hnone j other hj rfl hother
  · rintro ⟨i, hi, hname, hlatest⟩
    refine ⟨h.depth i, hr.lookup_eq_some.mpr ⟨i, hi, rfl, hname⟩, ?_⟩
    intro e he
    apply hr.lookup_eq_none.mpr
    intro j other hj hdepth hother
    -- What stands deeper was declared later.
    have hij : i < j := by
      by_contra hle
      have hback := History.depth_le_of_standing (by omega) hj hi
      omega
    exact hlatest j other hij hj hother

theorem resolve_eq_error (hr : Reflects h s) :
    s.resolve name = .error (.undefinedVariable name) ↔
      ∀ i slot, h.standing? i = some slot → slot.name ≠ name := by
  rw [Scope.resolve_eq_error, findSome_eq_none]
  constructor
  · intro hnone i slot hi
    exact hr.lookup_eq_none.mp (hnone (h.depth i)) i slot hi rfl
  · intro hnone d
    exact hr.lookup_eq_none.mpr fun i slot hi _ => hnone i slot hi

theorem answersBy (hr : Reflects h s) : s.AnswersBy h where
  found := by
    intro name slot
    rw [← hr.resolve_eq_ok]
    simp [Scope.call]
  missing := by
    intro name
    rw [← hr.resolve_eq_error]
    simp [Scope.call]
  refused := by
    intro slot
    rw [hr.innermost, call_declare]
    split
    · simp [*]
    · simp [*]
  accepted := by
    intro slot
    rw [hr.innermost, call_declare]
    split
    · simp [*]
    · simp [*]
  closed := by
    intro hdepth
    rw [hr.innermost]
    have hlength := hr.depth
    cases hblocks : s.blocks with
    | nil =>
        rw [hblocks, List.length_nil] at hlength
        omega
    | cons f rest =>
        refine ⟨⟨s.globals, rest⟩, ?_, ?_, rfl⟩
        · simp [Scope.call, pop, hblocks, current]
        · simp [hblocks, current]
  distinct := hr.distinct _
  unclosed := by
    intro hdepth
    have hlength := hr.depth
    rw [hdepth, List.length_eq_zero_iff] at hlength
    simp [Scope.call, pop, hlength]

end Reflects

/-! ### Blocks that are opened and closed -/

/-- No call closes a block that was open before, and every opened block is closed. -/
def Balanced (cs : List Call) : Prop :=
  (∀ k ≤ cs.length, (cs.take k).count .pop ≤ (cs.take k).count .push) ∧
    cs.count .pop = cs.count .push

instance (cs : List Call) : Decidable (Balanced cs) :=
  inferInstanceAs (Decidable ((∀ k ≤ cs.length, _ ≤ _) ∧ _ = _))

theorem calls_append (s : Scope) (cs ds : List Call) :
    (s.calls (cs ++ ds)).2 = ((s.calls cs).2.calls ds).2 := by
  induction cs generalizing s with
  | nil => rfl
  | cons c rest ih => exact ih (s.call c).2

section inner

variable (globals : Frame) {inner : List Frame} (outer : List Frame)

/-- A call made while an inner block is open does not get at the frames around it. -/
theorem call_inner (hopen : 0 < inner.length) (c : Call) :
    ∃ left, ((⟨globals, inner ++ outer⟩ : Scope).call c).2 = ⟨globals, left ++ outer⟩ ∧
      left.length + [c].count .pop = inner.length + [c].count .push := by
  obtain ⟨f, more, rfl⟩ := List.exists_cons_of_length_pos hopen
  cases c with
  | push => exact ⟨[] :: f :: more, rfl, rfl⟩
  | pop => exact ⟨more, rfl, rfl⟩
  | declare slot =>
      rw [call_declare]
      split
      · exact ⟨f :: more, rfl, by simp⟩
      · exact ⟨(f ++ [slot]) :: more, rfl, by simp⟩
  | resolve name => exact ⟨f :: more, rfl, by simp⟩

theorem calls_inner {cs : List Call}
    (hopen : ∀ before, before <+: cs → before.count .pop < inner.length + before.count .push) :
    ∃ left, ((⟨globals, inner ++ outer⟩ : Scope).calls cs).2 = ⟨globals, left ++ outer⟩ ∧
      left.length + cs.count .pop = inner.length + cs.count .push := by
  induction cs generalizing inner with
  | nil => exact ⟨inner, rfl, rfl⟩
  | cons c rest ih =>
      have hcons : ∀ (x : Call) (before : List Call),
          (c :: before).count x = [c].count x + before.count x := by
        intro x before
        rw [← List.count_append, List.singleton_append]
      have hpos : 0 < inner.length := by simpa using hopen [] List.nil_prefix
      obtain ⟨mid, hcall, hmid⟩ := call_inner globals outer hpos c
      have hrest : ∀ before, before <+: rest →
          before.count .pop < mid.length + before.count .push := by
        intro before hfront
        have hlt := hopen (c :: before) (List.cons_prefix_cons.mpr ⟨rfl, hfront⟩)
        rw [hcons .pop before, hcons .push before] at hlt
        omega
      obtain ⟨left, hleft, hcount⟩ := ih hrest
      refine ⟨left, ?_, ?_⟩
      · show ((Scope.call _ c).2.calls rest).2 = _
        rw [hcall, hleft]
      · rw [hcons .pop rest, hcons .push rest]
        omega

end inner

/-- A block that is opened and closed leaves nothing behind. -/
theorem calls_balanced {cs : List Call} (h : Balanced cs) (s : Scope) :
    (s.calls (.push :: (cs ++ [.pop]))).2 = s := by
  obtain ⟨hfront, hcount⟩ := h
  have hopen : ∀ before, before <+: cs →
      before.count .pop < [([] : Frame)].length + before.count .push := by
    intro before hbefore
    have hle := hfront before.length hbefore.length_le
    rw [← List.prefix_iff_eq_take.mp hbefore] at hle
    rw [List.length_singleton]
    omega
  obtain ⟨left, hleft, hlength⟩ := calls_inner s.globals s.blocks hopen
  have hone : left.length = 1 := by
    rw [List.length_singleton] at hlength
    omega
  obtain ⟨f, rfl⟩ := List.length_eq_one_iff.mp hone
  show (s.push.calls (cs ++ [.pop])).2 = s
  rw [calls_append]
  have hinner : (s.push.calls cs).2 = ⟨s.globals, f :: s.blocks⟩ := hleft
  rw [hinner]
  rfl

/-! ### Globals -/

theorem History.globals_increasing {h : History} (hr : Frame.Increasing h.declarations) :
    Frame.Increasing h.globals := by
  unfold Frame.Increasing declarations at hr
  unfold Frame.Increasing globals
  rw [List.pairwise_filterMap, List.pairwise_iff_getElem] at hr ⊢
  have hdeclared : ∀ (i : Nat) (slot : Slot) (hi : i < h.length),
      (if h.depth i = 0 then h.declared? i else none) = some slot →
        declaredBy? h[i] = some slot := by
    intro i slot hi hslot
    split at hslot
    · simpa [declared?, hi] using hslot
    · cases hslot
  intro i j hi hj hij a ha b hb
  rw [List.length_range] at hi hj
  rw [List.getElem_range] at ha hb
  exact hr i j hi hj hij a (hdeclared i a hi ha) b (hdeclared j b hj hb)

theorem Reflects.globals_eq {h : History} {s : Scope} (hr : Reflects h s) :
    s.globals = h.globals := by
  rw [← frameAt_globals, hr.frames, History.standingAt_zero]

/-! ### The main statement -/

/-- After any calls on a new scope, each answer can be read off the history.  A stretch of
calls from the opening of a block to its closing changes nothing, and if later slots have
greater numbers, the globals sorted by number are the global declarations in order, in
whatever order the globals are listed. -/
theorem after_answersBy_history (cs : List Call) :
    (after cs).AnswersBy (history cs) ∧
      (∀ inner, Balanced inner → after (cs ++ .push :: (inner ++ [.pop])) = after cs) ∧
      (Frame.Increasing (history cs).declarations →
        ∀ entries : Frame, entries.Perm (after cs).globals →
          entries.sorted = (history cs).globals) := by
  have hreflects := reflects_after cs
  refine ⟨hreflects.answersBy, ?_, ?_⟩
  · intro inner hinner
    unfold after
    rw [calls_append, calls_balanced hinner]
  · intro hincreasing entries hperm
    rw [hreflects.globals_eq] at hperm
    exact Frame.sorted_of_perm (History.globals_increasing hincreasing) hperm

/-- Two variables `x`, the second of them in a block that is still open. -/
def shadowing : List Call := [.declare ⟨0, .int, "x"⟩, .push, .declare ⟨1, .long, "x"⟩]

/-- Inside the block `x` is the second variable, and the block holds nothing else. -/
theorem after_answersBy_history_shadowing :
    (after shadowing).call (.resolve "x") = (.resolved (.ok ⟨1, .long, "x"⟩), after shadowing) ∧
      ((after shadowing).call .pop).1 = .popped (some [⟨1, .long, "x"⟩]) ∧
      after (shadowing ++ [.push, .declare ⟨2, .int, "x"⟩, .push, .pop, .pop]) = after shadowing ∧
      (after shadowing).globals.sorted = [⟨0, .int, "x"⟩] := by
  have hhistory : history shadowing =
      [(.declare ⟨0, .int, "x"⟩, .declared (.ok ())), (.push, .pushed),
        (.declare ⟨1, .long, "x"⟩, .declared (.ok ()))] := by rfl
  have hbalanced : Balanced [.declare ⟨2, .int, "x"⟩, .push, .pop] := by decide
  obtain ⟨hanswers, hstretch, hglobals⟩ := after_answersBy_history shadowing
  rw [hhistory] at hanswers hglobals
  refine ⟨?_, ?_, hstretch _ hbalanced, ?_⟩
  · apply (hanswers.found "x" _).mpr
    refine ⟨2, by decide, rfl, ?_⟩
    intro j other hj hother
    have hlt := History.lt_length_of_declared (History.standing_eq_some.mp hother).2
    simp only [List.length_cons, List.length_nil] at hlt
    omega
  · obtain ⟨t, hpop, -⟩ := hanswers.closed (by decide)
    rw [hpop]
    rfl
  · have hincreasing : Frame.Increasing [⟨0, .int, "x"⟩, ⟨1, .long, "x"⟩] := by
      simp [Frame.Increasing]
    rw [hglobals hincreasing _ (.refl _)]
    decide

end Scope

end SlotScript
