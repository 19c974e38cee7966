import SlotScript.Proofs.Continuation
import SlotScript.Proofs.Mirrors

/-! # Lowering after a failure

A statement that cannot be lowered leaves a state from which the next one can be
lowered.  An expression leaves the variables in force as they were (`Lowering.Steady`),
wherever in it the failure is.  Statements only add variables to the innermost frame
(`Lowering.Advances`), and since a block is closed whether or not its inside fails, what
was added there is gone when it is left (`inBlock_steady`).

So between statements no block is open and the global variables have slots of their own
(`Lowering.AtRest`), after any statements at all.  The main statement is
`lowerEach_consistent`. -/

namespace SlotScript

/-! ### The state that an attempt leaves -/

namespace Attempt

variable {σ ε α β : Type} {R : σ → σ → Prop}

/-- Whether the attempt succeeds or fails, the state it leaves is related to the one it
starts from. -/
def Leads (R : σ → σ → Prop) (x : Attempt σ ε α) : Prop := ∀ s, R s (x.run s).2

theorem Leads.mono {R' : σ → σ → Prop} {x : Attempt σ ε α} (h : Leads R x)
    (hR : ∀ s t, R s t → R' s t) : Leads R' x := fun s => hR s _ (h s)

theorem Leads.bind (htrans : ∀ s t u, R s t → R t u → R s u) {x : Attempt σ ε α}
    {f : α → Attempt σ ε β} (hx : Leads R x) (hf : ∀ a, Leads R (f a)) : Leads R (x >>= f) := by
  intro s
  have hfirst := hx s
  cases h : x.run s with
  | mk r t =>
      rw [h] at hfirst
      cases r with
      | ok a =>
          rw [bind_of_ok h]
          exact htrans s t _ hfirst (hf a t)
      | error e =>
          rw [bind_of_error h]
          exact hfirst

end Attempt

open Attempt

namespace Lowering

/-! ### Expressions -/

/-- The same variables are in force, and slots were only given out. -/
structure Steady (s t : Lowering) : Prop where
  scope : t.scope = s.scope
  count_le : s.slotCount ≤ t.slotCount

namespace Steady

variable {s t u : Lowering} {α β : Type}

theorem refl (s : Lowering) : s.Steady s := ⟨rfl, Nat.le_refl _⟩

theorem trans (h : s.Steady t) (h' : t.Steady u) : s.Steady u :=
  ⟨h'.scope.trans h.scope, Nat.le_trans h.count_le h'.count_le⟩

theorem pure (a : α) : Leads Steady (Pure.pure a : Lower α) := refl

theorem fail (e : LowerError) : Leads Steady (Attempt.fail e : Lower α) := refl

theorem bind {x : Lower α} {f : α → Lower β} (hx : Leads Steady x)
    (hf : ∀ a, Leads Steady (f a)) : Leads Steady (x >>= f) :=
  hx.bind (fun _ _ _ h h' => h.trans h') hf

theorem visit (t : Token) : Leads Steady (visit t) := fun _ => ⟨rfl, Nat.le_refl _⟩

theorem currentLine : Leads Steady currentLine := refl

theorem checkAt (t : Token) (r : Except LowerFault α) : Leads Steady (checkAt t r) := refl

theorem resolve (name : Token) : Leads Steady (resolve name) := refl

theorem allocate (name : String) (type : Ty) : Leads Steady (allocate name type) :=
  fun s => ⟨rfl, Nat.le_succ s.slotCount⟩

theorem applyUnary (op : Token) (operand : Code) : Leads Steady (applyUnary op operand) := by
  unfold Lowering.applyUnary
  split
  · exact bind (checkAt _ _) fun _ => bind currentLine fun _ => pure _
  · exact bind (checkAt _ _) fun _ => bind currentLine fun _ => pure _
  · exact bind (checkAt _ _) fun _ => bind currentLine fun _ => pure _
  · exact fail _

theorem stepVariable (op target : Token) (isPrefix : Bool) :
    Leads Steady (stepVariable op target isPrefix) := by
  unfold Lowering.stepVariable
  refine bind (resolve target) fun slot => ?_
  split
  · exact fail _
  · cases isPrefix with
    | true => exact pure _
    | false => exact bind (allocate _ _) fun _ => pure _

end Steady

end Lowering

open Lowering

/-- An expression declares nothing, wherever in it lowering fails. -/
theorem Expr.lower_steady (e : Expr) : Leads Steady e.lower := by
  induction e with
  | literal value => exact Steady.bind .currentLine fun _ => .pure _
  | grouping inner ih => exact ih
  | var name =>
      refine Steady.bind (.visit name) fun _ => ?_
      exact Steady.bind (.resolve name) fun _ => .pure _
  | assign target value ih =>
      refine Steady.bind (.visit target) fun _ => ?_
      refine Steady.bind (.resolve target) fun slot => ?_
      refine Steady.bind ih fun code => ?_
      exact Steady.bind (.checkAt _ _) fun _ => .pure _
  | unary op operand ih =>
      refine Steady.bind (.visit op) fun _ => ?_
      exact Steady.bind ih fun code => .applyUnary op code
  | binary left op right ihl ihr =>
      refine Steady.bind (.visit op) fun _ => ?_
      refine Steady.bind ihl fun l => ?_
      exact Steady.bind ihr fun r => .checkAt _ _
  | logical left op right ihl ihr =>
      refine Steady.bind (.visit op) fun _ => ?_
      refine Steady.bind ihl fun l => Steady.bind (.checkAt _ _) fun l => ?_
      refine Steady.bind ihr fun r => Steady.bind (.checkAt _ _) fun r => ?_
      exact Steady.bind .currentLine fun _ => .pure _
  | cast target operand ih =>
      refine Steady.bind (.visit target) fun _ => ?_
      exact Steady.bind ih fun code => .checkAt _ _
  | step op target isPrefix =>
      exact Steady.bind (.visit op) fun _ => .stepVariable op target isPrefix

/-! ### Statements -/

namespace Lowering

/-- Variables were only added to the innermost frame, slots only given out, and
variables in force still have slots of their own. -/
structure Advances (s t : Lowering) : Prop where
  grown : ∃ added, t.scope = s.scope.grow added
  count_le : s.slotCount ≤ t.slotCount
  numbered : s.Numbered → t.Numbered

variable {s t u : Lowering} {α β : Type}

theorem Advances.trans (h : s.Advances t) (h' : t.Advances u) : s.Advances u where
  grown := by
    obtain ⟨added, hadded⟩ := h.grown
    obtain ⟨more, hmore⟩ := h'.grown
    refine ⟨added ++ more, ?_⟩
    rw [hmore, hadded, Scope.grow_grow]
  count_le := Nat.le_trans h.count_le h'.count_le
  numbered := fun hs => h'.numbered (h.numbered hs)

theorem Advances.bind {x : Lower α} {f : α → Lower β} (hx : Leads Advances x)
    (hf : ∀ a, Leads Advances (f a)) : Leads Advances (x >>= f) :=
  hx.bind (fun _ _ _ h h' => h.trans h') hf

theorem Steady.advances (h : s.Steady t) : s.Advances t where
  grown := ⟨[], by rw [Scope.grow_nil, h.scope]⟩
  count_le := h.count_le
  numbered := fun hs => hs.congr (by rw [h.scope]) h.count_le

theorem Advances.declared (s : Lowering) (name : Token) (type : Ty) :
    s.Advances (s.declared name type) where
  grown := ⟨_, rfl⟩
  count_le := Nat.le_succ s.slotCount
  numbered := fun hs => hs.declared name type

theorem Advances.ofSteady {x : Lower α} (h : Leads Steady x) : Leads Advances x :=
  h.mono fun _ _ => Steady.advances

/-- A block is left in any case, and with it go the variables that were declared in it. -/
theorem inBlock_steady {inside : Lower α} (h : Leads Advances inside) :
    Leads Steady (inBlock inside) := by
  intro s
  have hinside := h { s with scope := s.scope.push }
  cases hrun : inside.run { s with scope := s.scope.push } with
  | mk r t =>
      rw [hrun] at hinside
      obtain ⟨added, hadded⟩ := hinside.grown
      have hadded : t.scope = s.scope.push.grow added := hadded
      have hcount : s.slotCount ≤ t.slotCount := hinside.count_le
      cases r with
      | ok a =>
          rw [inBlock_of_ok hrun hadded]
          exact ⟨rfl, hcount⟩
      | error e =>
          have hpop : t.scope.pop.2 = s.scope := by rw [hadded, Scope.pop_grow_push]
          rw [inBlock_of_error hrun]
          exact ⟨hpop, hcount⟩

section declare

variable {type : Ty} {name : Token} {initial : Option Expr}

/-- A name that is declared already is not declared again; the slot given out for it is
lost. -/
theorem declare_again {slot : Slot} (h : s.scope.current.lookup name.lexeme = some slot) :
    s.Steady ((Stmt.declare type name initial).lower.run s).2 := by
  have hscope : s.scope.declare ((s.atLine name.line).fresh name.lexeme type) =
      .error (.duplicateDeclaration name.lexeme) := by
    simp [Scope.declare, fresh, h]
  have hbind : (bindName name ((s.atLine name.line).fresh name.lexeme type)).run
      (s.atLine name.line).taken =
        (.error (.atToken name (.duplicateDeclaration name.lexeme)),
          (s.atLine name.line).taken) := by
    simp only [bindName, Attempt.run, taken_scope, atLine_scope, hscope]
  have hvisit : (visit name).run s = (.ok (), s.atLine name.line) := rfl
  rw [Stmt.lower, bind_of_ok hvisit, bind_of_ok (allocate_eq_ok.mpr ⟨rfl, rfl⟩),
    bind_of_error hbind]
  exact ⟨rfl, Nat.le_succ s.slotCount⟩

/-- A declared variable stays in force also if its initial value cannot be lowered. -/
theorem declare_fresh (h : s.scope.current.lookup name.lexeme = none) :
    (s.declared name type).Steady ((Stmt.declare type name initial).lower.run s).2 := by
  have hbind : (bindName name ((s.atLine name.line).fresh name.lexeme type)).run
      (s.atLine name.line).taken = (.ok (), s.declared name type) := bindName_eq_ok.mpr ⟨h, rfl⟩
  have hvisit : (visit name).run s = (.ok (), s.atLine name.line) := rfl
  rw [Stmt.lower, bind_of_ok hvisit, bind_of_ok (allocate_eq_ok.mpr ⟨rfl, rfl⟩),
    bind_of_ok hbind]
  cases initial with
  | none => exact Steady.pure _ _
  | some e =>
      have hvalue := Steady.bind e.lower_steady fun code =>
        Steady.bind (.checkAt name (code.asStored (s.fresh name.lexeme type))) fun stored =>
          Steady.pure (Code.storeTo (s.fresh name.lexeme type) stored name.line)
      exact hvalue (s.declared name type)

end declare

end Lowering

namespace Stmt

theorem print_steady (e : Expr) : Leads Steady (Stmt.print e).lower := by
  rw [Stmt.lower]
  exact Steady.bind e.lower_steady fun _ => .pure _

theorem block_steady {body : List Stmt} (h : Leads Advances (Stmt.lowerAll body)) :
    Leads Steady (Stmt.block body).lower := by
  rw [Stmt.lower]
  refine Steady.bind (inBlock_steady h) fun _ => ?_
  exact Steady.bind .currentLine fun _ => .pure _

mutual

theorem lower_advances : ∀ stmt : Stmt, Leads Advances stmt.lower
  | .expression e => by
      rw [Stmt.lower]
      exact .ofSteady e.lower_steady
  | .print e => .ofSteady (print_steady e)
  | .declare type name initial => by
      intro s
      cases h : s.scope.current.lookup name.lexeme with
      | some slot => exact (declare_again h).advances
      | none => exact (Advances.declared s name type).trans (declare_fresh h).advances
  | .block body => .ofSteady (block_steady (lowerAll_advances body))
  | .conditional form keyword condition branches => by
      rw [Stmt.lower]
      exact .ofSteady (.fail _)

theorem lowerAll_advances : ∀ stmts : List Stmt, Leads Advances (Stmt.lowerAll stmts)
  | [] => by
      rw [Stmt.lowerAll]
      exact .ofSteady (.pure [])
  | stmt :: rest => by
      rw [Stmt.lowerAll]
      refine Advances.bind (lower_advances stmt) fun code => ?_
      exact Advances.bind (lowerAll_advances rest) fun codes => .ofSteady (.pure _)

end

/-- The statement declares a variable that the scope does not have among its globals. -/
def Introduces (stmt : Stmt) (s : Scope) (name : String) : Prop :=
  ∃ type token initial, stmt = .declare type token initial ∧ token.lexeme = name ∧
    s.globals.lookup name = none

/-- Only a declaration of a new name changes what is in force, failing or not. -/
theorem lower_steady {stmt : Stmt} {s : Lowering} (hs : s.scope.blocks = [])
    (h : ∀ name, ¬ stmt.Introduces s.scope name) : s.Steady (stmt.lower.run s).2 := by
  cases stmt with
  | expression e =>
      rw [Stmt.lower]
      exact e.lower_steady s
  | print e => exact print_steady e s
  | block body => exact block_steady (lowerAll_advances body) s
  | declare type name initial =>
      have hcurrent : s.scope.current = s.scope.globals := by simp [Scope.current, hs]
      cases hname : s.scope.globals.lookup name.lexeme with
      | some slot => exact declare_again (by rw [hcurrent]; exact hname)
      | none => exact absurd ⟨type, name, initial, rfl, rfl, hname⟩ (h name.lexeme)
  | conditional form keyword condition branches =>
      rw [Stmt.lower]
      exact Steady.fail _ s

end Stmt

/-! ### One statement after the other -/

namespace Lowering

/-- Between two statements of a program: no block is open, and the global variables have
slots of their own. -/
structure AtRest (s : Lowering) : Prop where
  closed : s.scope.blocks = []
  numbered : s.Numbered

/-- The state after statements lowered one by one, going on after each that fails. -/
def afterEach (s : Lowering) (stmts : List Stmt) : Lowering :=
  stmts.foldl (fun s stmt => (stmt.lower.run s).2) s

namespace AtRest

variable {s : Lowering}

theorem start : start.AtRest := ⟨rfl, .start⟩

/-- What is added at rest is added to the globals. -/
theorem globals_grown (hs : s.AtRest) (stmt : Stmt) :
    ∃ added, (stmt.lower.run s).2.scope = ⟨s.scope.globals ++ added, []⟩ := by
  obtain ⟨added, hadded⟩ := (stmt.lower_advances s).grown
  refine ⟨added, ?_⟩
  rw [hadded, Scope.grow, hs.closed]

theorem step (hs : s.AtRest) (stmt : Stmt) : (stmt.lower.run s).2.AtRest where
  closed := by
    obtain ⟨added, hadded⟩ := hs.globals_grown stmt
    rw [hadded]
  numbered := (stmt.lower_advances s).numbered hs.numbered

theorem afterEach (hs : s.AtRest) (stmts : List Stmt) : (s.afterEach stmts).AtRest := by
  induction stmts generalizing s with
  | nil => exact hs
  | cons stmt rest ih => exact ih (hs.step stmt)

theorem slots_eq (hs : s.AtRest) : s.scope.slots = s.scope.globals := by
  simp [Scope.slots, Scope.frames, hs.closed]

/-- At rest a name means a global variable or none. -/
theorem resolve_eq_ok (hs : s.AtRest) {name : String} {slot : Slot} :
    s.scope.resolve name = .ok slot ↔ s.scope.globals.lookup name = some slot := by
  rw [Scope.resolve_eq_ok, Scope.frames, hs.closed, List.nil_append, List.findSome?_singleton]

theorem resolve_congr {t : Lowering} (hs : s.AtRest) (ht : t.AtRest) {name : String}
    (h : t.scope.globals.lookup name = s.scope.globals.lookup name) :
    t.scope.resolve name = s.scope.resolve name := by
  simp only [Scope.resolve, hs.closed, ht.closed, List.nil_append, List.findSome?_singleton, h]

end AtRest

/-- The code of a statement touches only slots that were given out. -/
theorem accesses_below {stmt : Stmt} {s t : Lowering} {c : Code} (hs : s.Numbered)
    (h : stmt.Lowers s c t) : ∀ slot ∈ c.accesses, slot.index < t.slotCount := by
  obtain ⟨added, vars, temps, hgives, -, hgoes⟩ := h.lays
  intro slot hslot
  have hmem := Access.Goes.mem_of_forall hgoes hslot
  rw [List.append_assoc, List.mem_append, List.mem_append] at hmem
  rcases hmem with hvar | hold | htemp
  · exact (hgives.index_between (List.mem_append_left _ hvar)).2
  · have hlt := hs.below slot hold
    have hcount := hgives.count
    omega
  · exact (hgives.index_between (List.mem_append_right _ htemp)).2

/-- What a statement, lowered from `s` with the result `r`, leaves behind in `t`. -/
structure Consistent (stmt : Stmt) (s : Lowering) (r : Except LowerError Code) (t : Lowering) :
    Prop where
  closed : t.scope.blocks = []
  count_le : s.slotCount ≤ t.slotCount
  /-- Global variables keep their slots. -/
  bound : ∀ name slot, s.scope.globals.lookup name = some slot →
    t.scope.globals.lookup name = some slot
  distinct : (t.scope.globals.map Slot.index).Nodup
  below : ∀ slot ∈ t.scope.globals, slot.index < t.slotCount
  /-- A declaration of a new name brings this name into force and changes no other, whether
  or not the initial value can be lowered. -/
  introduced : ∀ name, stmt.Introduces s.scope name →
    (∀ slot, s.scope.resolve name ≠ .ok slot) ∧ (∃ slot, t.scope.resolve name = .ok slot) ∧
      ∀ other, other ≠ name → t.scope.resolve other = s.scope.resolve other
  /-- Any other statement leaves the meaning of every name as it was. -/
  kept : (∀ name, ¬ stmt.Introduces s.scope name) →
    ∀ name, t.scope.resolve name = s.scope.resolve name
  /-- Loads and stores of the code are of slots that were given out. -/
  accessed : ∀ c, r = .ok c → ∀ slot ∈ c.accesses, slot.index < t.slotCount

theorem introduced_of {stmt : Stmt} {s : Lowering} {name : String} (hs : s.AtRest)
    (h : stmt.Introduces s.scope name) :
    (∀ slot, s.scope.resolve name ≠ .ok slot) ∧
      (∃ slot, (stmt.lower.run s).2.scope.resolve name = .ok slot) ∧
      ∀ other, other ≠ name →
        (stmt.lower.run s).2.scope.resolve other = s.scope.resolve other := by
  obtain ⟨type, token, initial, rfl, rfl, hname⟩ := h
  have hcurrent : s.scope.current = s.scope.globals := by simp [Scope.current, hs.closed]
  have hfresh : s.scope.current.lookup token.lexeme = none := by rw [hcurrent, hname]
  have hscope : ((Stmt.declare type token initial).lower.run s).2.scope =
      s.scope.grow [s.fresh token.lexeme type] := (declare_fresh hfresh).scope
  have hglobals : (s.scope.grow [s.fresh token.lexeme type]).globals =
      s.scope.globals ++ [s.fresh token.lexeme type] := by rw [Scope.grow, hs.closed]
  refine ⟨?_, ?_, ?_⟩
  · intro slot hslot
    rw [hs.resolve_eq_ok, hname] at hslot
    cases hslot
  · rw [hscope]
    exact ⟨_, Scope.resolve_grow hfresh⟩
  · intro other hother
    have hne : ¬ (s.fresh token.lexeme type).name = other := fun heq => hother heq.symm
    apply hs.resolve_congr (hs.step _)
    rw [hscope, hglobals, Frame.lookup_append_singleton, if_neg hne, Option.or_none]

end Lowering

/-- Lowering stays consistent across failures.  After any statements lowered one by one,
each of them lowered or failed, the next statement leaves a consistent state, whether it
can be lowered or not. -/
theorem lowerEach_consistent (earlier : List Stmt) (stmt : Stmt) :
    Consistent stmt (start.afterEach earlier) (stmt.lower.run (start.afterEach earlier)).1
      (stmt.lower.run (start.afterEach earlier)).2 := by
  have hs : (start.afterEach earlier).AtRest := AtRest.start.afterEach earlier
  generalize start.afterEach earlier = s at hs
  have ht := hs.step stmt
  obtain ⟨added, hadded⟩ := hs.globals_grown stmt
  refine ⟨ht.closed, (stmt.lower_advances s).count_le, ?_, ?_, ?_, ?_, ?_, ?_⟩
  · intro name slot hslot
    rw [hadded]
    unfold Frame.lookup at hslot ⊢
    rw [List.find?_append, hslot, Option.some_or]
  · rw [← ht.slots_eq]
    exact ht.numbered.distinct
  · rw [← ht.slots_eq]
    exact ht.numbered.below
  · intro name hname
    exact introduced_of hs hname
  · intro hnone name
    rw [(Stmt.lower_steady hs.closed hnone).scope]
  · intro c hc
    have hrun : stmt.lower.run s = (.ok c, (stmt.lower.run s).2) := Prod.ext hc rfl
    exact accesses_below hs.numbered (Stmt.lower_eq_ok.mp hrun)

/-- After `int x = y;` and `{ int z; y; }`, which both fail, `x` is declared, `z` is not, and
two slots are given out. -/
example :
    let token (name : String) : Token := ⟨.identifier, name, 1, none⟩
    start.afterEach [.declare .int (token "x") (some (.var (token "y"))),
        .block [.declare .int (token "z") none, .expression (.var (token "y"))]] =
      ⟨⟨[⟨0, .int, "x"⟩], []⟩, 2, 1⟩ := rfl

end SlotScript
