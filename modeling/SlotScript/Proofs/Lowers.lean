import SlotScript.Lowering
import SlotScript.Proofs.Promotion
import SlotScript.Proofs.Scopes

/-! # Successful lowering as a relation

`Expr.Lowers e s c t` says that the expression `e`, met in state `s`, is lowered
to the code `c` and leaves the state `t`; `Stmt.Lowers` and `Stmt.LowersAll` say
it of statements.  The relations have one rule for each form of syntax, and they
hold exactly when lowering succeeds (`Expr.lower_eq_ok`, `Stmt.lower_eq_ok`).
What lowering guarantees is proved by induction over them.

The rule for blocks states already that a block only adds to the frame it opens,
so the state behind a block has the scope of the state before it. -/

namespace SlotScript

open Attempt Lowering

namespace Lowering

/-- The state after a token on line `n` was looked at. -/
def atLine (s : Lowering) (n : Nat) : Lowering := { s with line := n }

/-- The slot that is given out next. -/
def fresh (s : Lowering) (name : String) (type : Ty) : Slot := ⟨s.slotCount, type, name⟩

/-- The state after the next slot was given out. -/
def taken (s : Lowering) : Lowering := { s with slotCount := s.slotCount + 1 }

/-- The state after a variable was declared. -/
def declared (s : Lowering) (name : Token) (type : Ty) : Lowering :=
  ⟨s.scope.grow [s.fresh name.lexeme type], s.slotCount + 1, name.line⟩

variable (s : Lowering) (n : Nat) (name : Token) (type : Ty)

@[simp] theorem atLine_scope : (s.atLine n).scope = s.scope := rfl
@[simp] theorem atLine_slotCount : (s.atLine n).slotCount = s.slotCount := rfl
@[simp] theorem atLine_line : (s.atLine n).line = n := rfl
@[simp] theorem taken_scope : s.taken.scope = s.scope := rfl
@[simp] theorem taken_slotCount : s.taken.slotCount = s.slotCount + 1 := rfl
@[simp] theorem declared_scope :
    (s.declared name type).scope = s.scope.grow [s.fresh name.lexeme type] := rfl
@[simp] theorem declared_slotCount : (s.declared name type).slotCount = s.slotCount + 1 := rfl

end Lowering

/-! ### The relations -/

/-- The operator that a token in front of an operand stands for, and the operand
as the operator needs it. -/
inductive Code.Prepared (c : Code) : Token.Kind → UnaryOp → Code → Prop
  | negate {d : Code} : c.asNumeric = .ok d → Prepared c .minus .negate d
  | not {d : Code} : c.asBoolean = .ok d → Prepared c .bang .not d
  | complement {d : Code} : c.asIntegral = .ok d → Prepared c .bitNot .complement d

/-- The operator of a node for `&&` or `||`. -/
def LogicOp.ofKind (k : Token.Kind) : LogicOp := if k = .or then .or else .and

/-- The operator that steps a variable up or down. -/
def Arithmetic.ofStep (k : Token.Kind) : Arithmetic := if k = .increment then .add else .subtract

/-- Steps the variable in a slot by `one`. -/
def Code.stepSlot (slot : Slot) (op : Token) (one : Value) : Code :=
  .storeTo slot
    (.binary (.arithmetic (.ofStep op.kind)) (.loadFrom slot op.line)
      (.ofValue one slot.type op.line) ⟨some slot.type, op.line⟩)
    op.line

/-- The lowering of an expression. -/
inductive Expr.Lowers : Expr → Lowering → Code → Lowering → Prop
  | literal (v : Literal) (s : Lowering) :
      Lowers (.literal v) s (.ofValue v.value v.type s.line) s
  | grouping {e : Expr} {s t : Lowering} {c : Code} : Lowers e s c t → Lowers (.grouping e) s c t
  | var {name : Token} {s : Lowering} {slot : Slot} :
      s.scope.resolve name.lexeme = .ok slot →
      Lowers (.var name) s (.loadFrom slot name.line) (s.atLine name.line)
  | assign {target : Token} {e : Expr} {s t : Lowering} {slot : Slot} {c d : Code} :
      s.scope.resolve target.lexeme = .ok slot → Lowers e (s.atLine target.line) c t →
      c.asStored slot = .ok d → Lowers (.assign target e) s (.storeTo slot d target.line) t
  | unary {op : Token} {e : Expr} {s t : Lowering} {o : UnaryOp} {c d : Code} :
      Lowers e (s.atLine op.line) c t → c.Prepared op.kind o d →
      Lowers (.unary op e) s (.unary o d ⟨d.type, t.line⟩) t
  | binary {left right : Expr} {op : Token} {s t u : Lowering} {a b c : Code} :
      Lowers left (s.atLine op.line) a t → Lowers right t b u → a.combine op b = .ok c →
      Lowers (.binary left op right) s c u
  | logical {left right : Expr} {op : Token} {s t u : Lowering} {a b l r : Code} :
      Lowers left (s.atLine op.line) a t → a.asBoolean = .ok l →
      Lowers right t b u → b.asBoolean = .ok r →
      Lowers (.logical left op right) s
        (.logical (.ofKind op.kind) l r ⟨some .bool, u.line⟩) u
  | cast {target : Token} {e : Expr} {s t : Lowering} {c d : Code} :
      Lowers e (s.atLine target.line) c t → c.castTo target.lexeme target.line = .ok d →
      Lowers (.cast target e) s d t
  | stepBefore {op target : Token} {s : Lowering} {slot : Slot} {one : Value} :
      s.scope.resolve target.lexeme = .ok slot → stepValue? slot.type = some one →
      Lowers (.step op target true) s (.stepSlot slot op one) (s.atLine op.line)
  | stepBehind {op target : Token} {s : Lowering} {slot : Slot} {one : Value} :
      s.scope.resolve target.lexeme = .ok slot → stepValue? slot.type = some one →
      Lowers (.step op target false) s
        (.ofBlock [s.fresh "temp" slot.type]
          [.storeTo (s.fresh "temp" slot.type) (.loadFrom slot op.line) op.line,
            .stepSlot slot op one, .loadFrom (s.fresh "temp" slot.type) op.line]
          op.line)
        (s.atLine op.line).taken

mutual

/-- The lowering of a statement. -/
inductive Stmt.Lowers : Stmt → Lowering → Code → Lowering → Prop
  | expression {e : Expr} {s t : Lowering} {c : Code} :
      e.Lowers s c t → Stmt.Lowers (.expression e) s c t
  | print {e : Expr} {s t : Lowering} {c : Code} :
      e.Lowers s c t → Stmt.Lowers (.print e) s (.print c ⟨none, c.line⟩) t
  | declare {type : Ty} {name : Token} {s : Lowering} :
      s.scope.current.lookup name.lexeme = none →
      Stmt.Lowers (.declare type name none) s
        (.storeTo (s.fresh name.lexeme type) (.ofValue (.default type) type name.line) name.line)
        (s.declared name type)
  | declareInit {type : Ty} {name : Token} {e : Expr} {s t : Lowering} {c d : Code} :
      s.scope.current.lookup name.lexeme = none → e.Lowers (s.declared name type) c t →
      c.asStored (s.fresh name.lexeme type) = .ok d →
      Stmt.Lowers (.declare type name (some e)) s
        (.storeTo (s.fresh name.lexeme type) d name.line) t
  | block {body : List Stmt} {s t : Lowering} {codes : List Code} {added : Frame} :
      Stmt.LowersAll body { s with scope := s.scope.push } codes t →
      t.scope = s.scope.push.grow added →
      Stmt.Lowers (.block body) s
        (.ofBlock added.sorted codes ((codes.head?.map Code.line).getD t.line))
        { t with scope := s.scope }

/-- The lowering of statements in order. -/
inductive Stmt.LowersAll : List Stmt → Lowering → List Code → Lowering → Prop
  | nil (s : Lowering) : Stmt.LowersAll [] s [] s
  | cons {stmt : Stmt} {rest : List Stmt} {s t u : Lowering} {c : Code} {codes : List Code} :
      stmt.Lowers s c t → Stmt.LowersAll rest t codes u →
      Stmt.LowersAll (stmt :: rest) s (c :: codes) u

end

/-! ### Single steps -/

namespace Lowering

variable {s t : Lowering} {k : Token}

theorem visit_eq_ok {u : Unit} : (visit k).run s = (.ok u, t) ↔ s.atLine k.line = t := by
  simp [visit, atLine]

theorem currentLine_eq_ok {n : Nat} : currentLine.run s = (.ok n, t) ↔ s.line = n ∧ s = t := by
  rw [show currentLine.run s = (.ok s.line, s) from rfl, Prod.mk.injEq, Except.ok.injEq]

theorem checkAt_eq_ok {α : Type} {r : Except LowerFault α} {a : α} :
    (checkAt k r).run s = (.ok a, t) ↔ r = .ok a ∧ s = t := by
  rw [checkAt, ofExcept_eq_ok, Outcome.mapError_eq_ok]

theorem resolve_eq_ok {slot : Slot} :
    (resolve k).run s = (.ok slot, t) ↔ s.scope.resolve k.lexeme = .ok slot ∧ s = t := by
  simp only [resolve, bind_eq_ok, checkAt_eq_ok, get_run, Prod.mk.injEq, Except.ok.injEq]
  constructor
  · rintro ⟨_, _, ⟨rfl, rfl⟩, h, rfl⟩
    exact ⟨h, rfl⟩
  · rintro ⟨h, rfl⟩
    exact ⟨s, s, ⟨rfl, rfl⟩, h, rfl⟩

theorem allocate_eq_ok {name : String} {type : Ty} {slot : Slot} :
    (allocate name type).run s = (.ok slot, t) ↔ slot = s.fresh name type ∧ t = s.taken := by
  rw [show (allocate name type).run s = (.ok (s.fresh name type), s.taken) from rfl,
    Prod.mk.injEq, Except.ok.injEq, eq_comm, @eq_comm _ t]

theorem bindName_eq_ok {slot : Slot} {u : Unit} :
    (bindName k slot).run s = (.ok u, t) ↔
      s.scope.current.lookup slot.name = none ∧ t = { s with scope := s.scope.grow [slot] } := by
  unfold bindName Attempt.run
  cases h : s.scope.declare slot with
  | ok scope =>
      obtain ⟨hn, rfl⟩ := Scope.declare_eq_ok.mp h
      simp [h, hn, eq_comm]
  | error fault =>
      have hn : s.scope.current.lookup slot.name ≠ none := fun hn => by
        rw [Scope.declare_eq_ok.mpr ⟨hn, rfl⟩] at h
        cases h
      simp [h, hn]

theorem applyUnary_eq_ok {c d : Code} :
    (applyUnary k c).run s = (.ok d, t) ↔
      ∃ o e, c.Prepared k.kind o e ∧ d = .unary o e ⟨e.type, s.line⟩ ∧ s = t := by
  have finish : ∀ (o : UnaryOp) (r : Except LowerFault Code),
      ((do
        let e ← checkAt k r
        return Code.unary o e ⟨e.type, ← currentLine⟩ : Lower Code).run s = (.ok d, t)) ↔
      ∃ e, r = .ok e ∧ d = .unary o e ⟨e.type, s.line⟩ ∧ s = t := by
    intro o r
    simp only [bind_eq_ok, checkAt_eq_ok, currentLine_eq_ok, pure_eq_ok]
    constructor
    · rintro ⟨e, _, ⟨hr, rfl⟩, _, _, ⟨rfl, rfl⟩, rfl, rfl⟩
      exact ⟨e, hr, rfl, rfl⟩
    · rintro ⟨e, hr, rfl, rfl⟩
      exact ⟨e, s, ⟨hr, rfl⟩, s.line, s, ⟨rfl, rfl⟩, rfl, rfl⟩
  unfold applyUnary
  constructor
  · intro h
    split at h
    · rename_i hk
      obtain ⟨e, he, hd, hs⟩ := (finish .negate _).mp h
      exact ⟨.negate, e, hk ▸ .negate he, hd, hs⟩
    · rename_i hk
      obtain ⟨e, he, hd, hs⟩ := (finish .not _).mp h
      exact ⟨.not, e, hk ▸ .not he, hd, hs⟩
    · rename_i hk
      obtain ⟨e, he, hd, hs⟩ := (finish .complement _).mp h
      exact ⟨.complement, e, hk ▸ .complement he, hd, hs⟩
    · cases h
  · rintro ⟨o, e, hp, hd, hs⟩
    generalize k.kind = kind at hp
    cases hp with
    | negate he => exact (finish .negate _).mpr ⟨e, he, hd, hs⟩
    | not he => exact (finish .not _).mpr ⟨e, he, hd, hs⟩
    | complement he => exact (finish .complement _).mpr ⟨e, he, hd, hs⟩

end Lowering

/-! ### Expressions -/

namespace Lowering

theorem stepVariable_eq_ok {op target : Token} {isPrefix : Bool} {s t : Lowering} {c : Code} :
    (stepVariable op target isPrefix).run (s.atLine op.line) = (.ok c, t) ↔
      (Expr.step op target isPrefix).Lowers s c t := by
  simp only [stepVariable, bind_eq_ok, resolve_eq_ok]
  constructor
  · rintro ⟨slot, _, ⟨hr, rfl⟩, h⟩
    split at h
    · cases h
    · rename_i one hone
      cases isPrefix with
      | true =>
          obtain ⟨rfl, rfl⟩ := pure_eq_ok.mp h
          exact .stepBefore hr hone
      | false =>
          obtain ⟨temp, _, ha, h⟩ := bind_eq_ok.mp h
          obtain ⟨rfl, rfl⟩ := allocate_eq_ok.mp ha
          obtain ⟨rfl, rfl⟩ := pure_eq_ok.mp h
          exact .stepBehind hr hone
  · intro h
    cases h with
    | stepBefore hr hone =>
        refine ⟨_, _, ⟨hr, rfl⟩, ?_⟩
        rw [hone]
        rfl
    | stepBehind hr hone =>
        refine ⟨_, _, ⟨hr, rfl⟩, ?_⟩
        rw [hone]
        rfl

end Lowering

theorem Expr.lowers_of_lower {e : Expr} : ∀ {s t : Lowering} {c : Code},
    e.lower.run s = (.ok c, t) → e.Lowers s c t := by
  induction e with
  | literal v =>
      intro s t c h
      simp only [Expr.lower, bind_eq_ok, currentLine_eq_ok, pure_eq_ok] at h
      obtain ⟨_, _, ⟨rfl, rfl⟩, rfl, rfl⟩ := h
      exact .literal v s
  | var name =>
      intro s t c h
      simp only [Expr.lower, bind_eq_ok, visit_eq_ok, resolve_eq_ok, pure_eq_ok] at h
      obtain ⟨_, _, rfl, slot, _, ⟨hr, rfl⟩, rfl, rfl⟩ := h
      exact .var hr
  | unary op e ih =>
      intro s t c h
      simp only [Expr.lower, bind_eq_ok, visit_eq_ok, applyUnary_eq_ok] at h
      obtain ⟨_, _, rfl, a, _, ha, o, d, hp, rfl, rfl⟩ := h
      exact .unary (ih ha) hp
  | binary left op right ihl ihr =>
      intro s t c h
      simp only [Expr.lower, bind_eq_ok, visit_eq_ok, checkAt_eq_ok] at h
      obtain ⟨_, _, rfl, a, _, ha, b, _, hb, hc, rfl⟩ := h
      exact .binary (ihl ha) (ihr hb) hc
  | logical left op right ihl ihr =>
      intro s t c h
      simp only [Expr.lower, bind_eq_ok, visit_eq_ok, checkAt_eq_ok, currentLine_eq_ok,
        pure_eq_ok] at h
      obtain ⟨_, _, rfl, a, _, ha, l, _, ⟨hl, rfl⟩, b, _, hb, r, _, ⟨hr, rfl⟩, _, _, ⟨rfl, rfl⟩,
        rfl, rfl⟩ := h
      exact .logical (ihl ha) hl (ihr hb) hr
  | assign target e ih =>
      intro s t c h
      simp only [Expr.lower, bind_eq_ok, visit_eq_ok, resolve_eq_ok, checkAt_eq_ok,
        pure_eq_ok] at h
      obtain ⟨_, _, rfl, slot, _, ⟨hr, rfl⟩, a, _, ha, d, _, ⟨hd, rfl⟩, rfl, rfl⟩ := h
      exact .assign hr (ih ha) hd
  | grouping e ih =>
      intro s t c h
      exact .grouping (ih h)
  | cast target e ih =>
      intro s t c h
      simp only [Expr.lower, bind_eq_ok, visit_eq_ok, checkAt_eq_ok] at h
      obtain ⟨_, _, rfl, a, _, ha, hd, rfl⟩ := h
      exact .cast (ih ha) hd
  | step op target isPrefix =>
      intro s t c h
      simp only [Expr.lower, bind_eq_ok, visit_eq_ok] at h
      obtain ⟨_, _, rfl, h⟩ := h
      exact stepVariable_eq_ok.mp h

theorem Expr.Lowers.lower {e : Expr} {s t : Lowering} {c : Code} (h : e.Lowers s c t) :
    e.lower.run s = (.ok c, t) := by
  induction h with
  | literal v s => rfl
  | grouping _ ih => exact ih
  | var hr =>
      simp only [Expr.lower, bind_eq_ok, visit_eq_ok, resolve_eq_ok, pure_eq_ok]
      exact ⟨(), _, rfl, _, _, ⟨hr, rfl⟩, rfl, rfl⟩
  | assign hr _ hd ih =>
      simp only [Expr.lower, bind_eq_ok, visit_eq_ok, resolve_eq_ok, checkAt_eq_ok, pure_eq_ok]
      exact ⟨(), _, rfl, _, _, ⟨hr, rfl⟩, _, _, ih, _, _, ⟨hd, rfl⟩, rfl, rfl⟩
  | unary _ hp ih =>
      simp only [Expr.lower, bind_eq_ok, visit_eq_ok, applyUnary_eq_ok]
      exact ⟨(), _, rfl, _, _, ih, _, _, hp, rfl, rfl⟩
  | binary _ _ hc ihl ihr =>
      simp only [Expr.lower, bind_eq_ok, visit_eq_ok, checkAt_eq_ok]
      exact ⟨(), _, rfl, _, _, ihl, _, _, ihr, hc, rfl⟩
  | logical _ hl _ hr ihl ihr =>
      simp only [Expr.lower, bind_eq_ok, visit_eq_ok, checkAt_eq_ok, currentLine_eq_ok,
        pure_eq_ok]
      exact ⟨(), _, rfl, _, _, ihl, _, _, ⟨hl, rfl⟩, _, _, ihr, _, _, ⟨hr, rfl⟩, _, _, ⟨rfl, rfl⟩,
        rfl, rfl⟩
  | cast _ hd ih =>
      simp only [Expr.lower, bind_eq_ok, visit_eq_ok, checkAt_eq_ok]
      exact ⟨(), _, rfl, _, _, ih, hd, rfl⟩
  | stepBefore hr hone =>
      simp only [Expr.lower, bind_eq_ok, visit_eq_ok]
      exact ⟨(), _, rfl, stepVariable_eq_ok.mpr (.stepBefore hr hone)⟩
  | stepBehind hr hone =>
      simp only [Expr.lower, bind_eq_ok, visit_eq_ok]
      exact ⟨(), _, rfl, stepVariable_eq_ok.mpr (.stepBehind hr hone)⟩

theorem Expr.lower_eq_ok {e : Expr} {s t : Lowering} {c : Code} :
    e.lower.run s = (.ok c, t) ↔ e.Lowers s c t :=
  ⟨Expr.lowers_of_lower, Expr.Lowers.lower⟩

/-- An expression declares nothing. -/
theorem Expr.Lowers.scope_eq {e : Expr} {s t : Lowering} {c : Code} (h : e.Lowers s c t) :
    t.scope = s.scope := by
  induction h with
  | literal v s => rfl
  | grouping _ ih => exact ih
  | var hr => rfl
  | assign _ _ _ ih => exact ih
  | unary _ _ ih => exact ih
  | binary _ _ _ ihl ihr => exact ihr.trans ihl
  | logical _ _ _ _ ihl ihr => exact ihr.trans ihl
  | cast _ _ ih => exact ih
  | stepBefore _ _ => rfl
  | stepBehind _ _ => rfl

/-! ### Statements -/

mutual

theorem Stmt.Lowers.scope_grow {stmt : Stmt} {s t : Lowering} {c : Code} :
    stmt.Lowers s c t → ∃ added, t.scope = s.scope.grow added
  | .expression h => ⟨[], by rw [h.scope_eq, Scope.grow_nil]⟩
  | .print h => ⟨[], by rw [h.scope_eq, Scope.grow_nil]⟩
  | .declare _ => ⟨_, rfl⟩
  | .declareInit _ h _ => ⟨_, h.scope_eq⟩
  | .block _ _ => ⟨[], Scope.grow_nil.symm⟩

/-- Statements only add variables to the innermost frame. -/
theorem Stmt.LowersAll.scope_grow {stmts : List Stmt} {s t : Lowering} {codes : List Code} :
    Stmt.LowersAll stmts s codes t → ∃ added, t.scope = s.scope.grow added
  | .nil s => ⟨[], Scope.grow_nil.symm⟩
  | .cons h hs => by
      obtain ⟨first, h₁⟩ := h.scope_grow
      obtain ⟨others, h₂⟩ := hs.scope_grow
      exact ⟨first ++ others, by rw [h₂, h₁, Scope.grow_grow]⟩

end

namespace Lowering

theorem inBlock_of_ok {α : Type} {inside : Lower α} {s t : Lowering} {a : α} {added : Frame}
    (h : inside.run { s with scope := s.scope.push } = (.ok a, t))
    (ht : t.scope = s.scope.push.grow added) :
    (inBlock inside).run s = (.ok (a, added.sorted), { t with scope := s.scope }) := by
  unfold Attempt.run at h ⊢
  simp only [inBlock, Attempt.run, h, ht, Scope.pop_grow_push]
  rfl

theorem inBlock_of_error {α : Type} {inside : Lower α} {s t : Lowering} {e : LowerError}
    (h : inside.run { s with scope := s.scope.push } = (.error e, t)) :
    (inBlock inside).run s = (.error e, { t with scope := t.scope.pop.2 }) := by
  unfold Attempt.run at h ⊢
  simp only [inBlock, Attempt.run, h]
  rfl

end Lowering

mutual

theorem Stmt.lowers_of_lower : ∀ (stmt : Stmt) {s t : Lowering} {c : Code},
    stmt.lower.run s = (.ok c, t) → stmt.Lowers s c t
  | .expression e, s, t, c, h => by
      rw [Stmt.lower] at h
      exact .expression (Expr.lowers_of_lower h)
  | .print e, s, t, c, h => by
      simp only [Stmt.lower, bind_eq_ok, pure_eq_ok] at h
      obtain ⟨a, _, ha, rfl, rfl⟩ := h
      exact .print (Expr.lowers_of_lower ha)
  | .declare type name none, s, t, c, h => by
      simp only [Stmt.lower, bind_eq_ok, visit_eq_ok, allocate_eq_ok, bindName_eq_ok,
        pure_eq_ok] at h
      obtain ⟨_, _, rfl, _, _, ⟨rfl, rfl⟩, _, _, ⟨hn, rfl⟩, rfl, rfl⟩ := h
      exact .declare hn
  | .declare type name (some e), s, t, c, h => by
      simp only [Stmt.lower, bind_eq_ok, visit_eq_ok, allocate_eq_ok, bindName_eq_ok,
        checkAt_eq_ok, pure_eq_ok] at h
      obtain ⟨_, _, rfl, _, _, ⟨rfl, rfl⟩, _, _, ⟨hn, rfl⟩, a, _, ha, d, _, ⟨hd, rfl⟩, rfl, rfl⟩ := h
      exact .declareInit hn (Expr.lowers_of_lower ha) hd
  | .block body, s, t, c, h => by
      rw [Stmt.lower] at h
      obtain ⟨⟨codes, slots⟩, u, hb, h⟩ := bind_eq_ok.mp h
      obtain ⟨line, _, hline, h⟩ := bind_eq_ok.mp h
      obtain ⟨rfl, rfl⟩ := currentLine_eq_ok.mp hline
      obtain ⟨rfl, rfl⟩ := pure_eq_ok.mp h
      cases hi : (Stmt.lowerAll body).run { s with scope := s.scope.push } with
      | mk r v =>
          cases r with
          | error e => rw [inBlock_of_error hi] at hb; cases hb
          | ok codes' =>
              have hl := Stmt.lowersAll_of_lowerAll body hi
              obtain ⟨added, hv⟩ := hl.scope_grow
              rw [inBlock_of_ok hi hv] at hb
              cases hb
              exact .block (t := v) hl hv
  | .conditional form keyword condition branches, s, t, c, h => by
      rw [Stmt.lower] at h
      cases h

theorem Stmt.lowersAll_of_lowerAll : ∀ (stmts : List Stmt) {s t : Lowering} {codes : List Code},
    (Stmt.lowerAll stmts).run s = (.ok codes, t) → Stmt.LowersAll stmts s codes t
  | [], s, t, codes, h => by
      rw [Stmt.lowerAll] at h
      obtain ⟨rfl, rfl⟩ := pure_eq_ok.mp h
      exact .nil s
  | stmt :: rest, s, t, codes, h => by
      simp only [Stmt.lowerAll, bind_eq_ok, pure_eq_ok] at h
      obtain ⟨c, _, hc, cs, _, hcs, rfl, rfl⟩ := h
      exact .cons (Stmt.lowers_of_lower stmt hc) (Stmt.lowersAll_of_lowerAll rest hcs)

end

mutual

theorem Stmt.Lowers.lower {stmt : Stmt} {s t : Lowering} {c : Code} :
    stmt.Lowers s c t → stmt.lower.run s = (.ok c, t)
  | .expression h => by
      rw [Stmt.lower]
      exact h.lower
  | .print h => by
      simp only [Stmt.lower, bind_eq_ok, pure_eq_ok]
      exact ⟨_, _, h.lower, rfl, rfl⟩
  | .declare hn => by
      simp only [Stmt.lower, bind_eq_ok, visit_eq_ok, allocate_eq_ok, bindName_eq_ok, pure_eq_ok]
      exact ⟨(), _, rfl, _, _, ⟨rfl, rfl⟩, (), _, ⟨hn, rfl⟩, rfl, rfl⟩
  | .declareInit hn h hd => by
      simp only [Stmt.lower, bind_eq_ok, visit_eq_ok, allocate_eq_ok, bindName_eq_ok,
        checkAt_eq_ok, pure_eq_ok]
      exact ⟨(), _, rfl, _, _, ⟨rfl, rfl⟩, (), _, ⟨hn, rfl⟩, _, _, h.lower, _, _, ⟨hd, rfl⟩, rfl, rfl⟩
  | .block h ht => by
      rw [Stmt.lower, bind_of_ok (inBlock_of_ok h.lowerAll ht)]
      rfl

theorem Stmt.LowersAll.lowerAll {stmts : List Stmt} {s t : Lowering} {codes : List Code} :
    Stmt.LowersAll stmts s codes t → (Stmt.lowerAll stmts).run s = (.ok codes, t)
  | .nil s => rfl
  | .cons h hs => by
      simp only [Stmt.lowerAll, bind_eq_ok, pure_eq_ok]
      exact ⟨_, _, h.lower, _, _, hs.lowerAll, rfl, rfl⟩

end

theorem Stmt.lower_eq_ok {stmt : Stmt} {s t : Lowering} {c : Code} :
    stmt.lower.run s = (.ok c, t) ↔ stmt.Lowers s c t :=
  ⟨Stmt.lowers_of_lower stmt, Stmt.Lowers.lower⟩

theorem Stmt.lowerAll_eq_ok {stmts : List Stmt} {s t : Lowering} {codes : List Code} :
    (Stmt.lowerAll stmts).run s = (.ok codes, t) ↔ Stmt.LowersAll stmts s codes t :=
  ⟨Stmt.lowersAll_of_lowerAll stmts, Stmt.LowersAll.lowerAll⟩

/-- A program is lowered to a block that declares its global variables. -/
theorem lower_eq_ok_iff {program : List Stmt} {p : Lowered} :
    lower program = .ok p ↔
      ∃ codes t added, Stmt.LowersAll program .start codes t ∧ t.scope = ⟨added, []⟩ ∧
        p = ⟨.ofBlock (Frame.sorted added) codes 1, t.slotCount⟩ := by
  unfold lower
  constructor
  · intro h
    split at h
    · rename_i codes t hl
      have hl := Stmt.lowerAll_eq_ok.mp hl
      obtain ⟨added, ht⟩ := hl.scope_grow
      replace ht : t.scope = ⟨added, []⟩ := ht
      refine ⟨codes, t, added, hl, ht, ?_⟩
      rw [ht] at h
      exact (Except.ok.inj h).symm
    · cases h
  · rintro ⟨codes, t, added, hl, ht, rfl⟩
    rw [Stmt.lowerAll_eq_ok.mpr hl]
    simp only [ht]

end SlotScript
