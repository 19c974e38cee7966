import SlotScript.Proofs.Lowers

/-! # Lines of the code

Code notes a line, and one expects the line of the token that the code was made for: the name
of a variable, the target of an assignment or cast, or the operator.  Two forms depart from
that.  An operator in front of its operand, and `&&` and `||`, note the line that was looked
at last, and by then lowering has looked at the operands (`Expr.Lowers.line_eq`).

So the code for these two forms carries the line of its own token only if the last token of
the operands stands on it, and the code for every other form does so whatever lines its
operands cover (`lower_lines`).  `lower_lines_negation` is a program that shows the
difference. -/

namespace SlotScript

open Lowering

namespace Expr

/-- The token that the code for an expression is made for.  Literals have none, and groupings
and their contents have the same code. -/
def token? : Expr → Option Token
  | .literal _ | .grouping _ => none
  | .var name => some name
  | .assign target _ | .cast target _ => some target
  | .unary op _ | .binary _ op _ | .logical _ op _ | .step op _ _ => some op

/-- The tokens of an expression in the order in which lowering looks at them: first its own,
then those of its operands from left to right. -/
def tokens : Expr → List Token
  | .literal _ => []
  | .grouping inner => inner.tokens
  | .var name => [name]
  | .assign target operand | .cast target operand | .unary target operand =>
    target :: operand.tokens
  | .binary left op right | .logical left op right => op :: (left.tokens ++ right.tokens)
  | .step op _ _ => [op]

/-- The line of the last token of an expression, or `line` if it has none. -/
def lastLine (e : Expr) (line : Nat) : Nat := (e.tokens.map Token.line).getLastD line

/-- The expression applies an operator in front of its operand, or is a logical one. -/
def isUnaryOrLogical : Expr → Bool
  | .unary _ _ | .logical _ _ _ => true
  | _ => false

/-- The expression casts its operand to the type that this has already. -/
def IsIdentityCast (e : Expr) (s : Lowering) : Prop :=
  ∃ target operand c t, e = .cast target operand ∧
    operand.lower.run (s.atLine target.line) = (.ok c, t) ∧ c.type = Ty.ofName? target.lexeme

end Expr

theorem getLastD_append {α : Type} (xs ys : List α) (a : α) :
    (xs ++ ys).getLastD a = ys.getLastD (xs.getLastD a) := by
  induction xs generalizing a with
  | nil => rfl
  | cons x xs ih => rw [List.cons_append, List.getLastD_cons, List.getLastD_cons, ih]

/-- Lowering an expression leaves the line of its last token. -/
theorem Expr.Lowers.line_eq {e : Expr} {s t : Lowering} {c : Code} (h : e.Lowers s c t) :
    t.line = e.lastLine s.line := by
  induction h with
  | literal | var | stepBefore | stepBehind => rfl
  | grouping _ ih => exact ih
  | assign _ _ _ ih | unary _ _ ih | cast _ _ ih =>
      simp only [ih, Expr.lastLine, Expr.tokens, List.map_cons, List.getLastD_cons, atLine_line]
  | binary _ _ _ ihl ihr | logical _ _ _ _ ihl ihr =>
      simp only [ihr, ihl, Expr.lastLine, Expr.tokens, List.map_cons, List.map_append,
        List.getLastD_cons, getLastD_append, atLine_line]

/-- Every form in which two operands are combined notes the line of the operator. -/
theorem Code.combine_line {a b c : Code} {op : Token} (h : a.combine op b = .ok c) :
    c.line = op.line := by
  obtain ⟨l, r, -, -, hcombined⟩ := Code.combine_eq_ok.mp h
  cases hcombined with
  | integralPower | doublePower | concat | operator => rfl

/-- A cast that is not dropped notes the line it is made on. -/
theorem Code.castTo_line {c d : Code} {name : String} {line : Nat}
    (h : c.castTo name line = .ok d) (hne : c.type ≠ Ty.ofName? name) : d.line = line := by
  obtain ⟨source, target, hname, htype, -, hd⟩ := Code.castTo_eq_ok.mp h
  have hother : source ≠ target := by
    rintro rfl
    exact hne (htype.trans hname.symm)
  rw [hd, if_neg hother]
  rfl

/-- By the time the code of a unary or logical expression notes a line, lowering has gone
through the operands. -/
theorem Expr.Lowers.code_line_last {e : Expr} {s t : Lowering} {c : Code} {own : Token}
    (h : e.Lowers s c t) (hown : e.token? = some own) (hform : e.isUnaryOrLogical = true) :
    c.line = e.lastLine own.line := by
  -- The code takes its line from the state that is left, not from the operator.
  have hline := h.line_eq
  cases h with
  | unary | logical =>
      cases hown
      exact hline
  | literal | grouping | var | assign | binary | cast | stepBefore | stepBehind => cases hform

theorem Expr.Lowers.code_line_own {e : Expr} {s t : Lowering} {c : Code} {own : Token}
    (h : e.Lowers s c t) (hown : e.token? = some own) (hcast : ¬ e.IsIdentityCast s)
    (hform : e.isUnaryOrLogical = false) : c.line = own.line := by
  cases h with
  | literal | grouping => cases hown
  | unary | logical => cases hform
  | var | assign | stepBefore | stepBehind =>
      cases hown
      rfl
  | binary _ _ hcombine =>
      cases hown
      exact Code.combine_line hcombine
  | cast hoperand hcastTo =>
      cases hown
      refine Code.castTo_line hcastTo fun htype => hcast ?_
      exact ⟨_, _, _, _, rfl, hoperand.lower, htype⟩

/-- **Lines of the code.**  The code for an expression with a token of its own, unless it is a
cast that is dropped, notes the line of this token; only a unary or logical expression notes
the line of its last token.  The code for a declaration notes the line of the name. -/
theorem lower_lines (s t : Lowering) (c : Code) :
    (∀ (e : Expr) (own : Token), e.lower.run s = (.ok c, t) → e.token? = some own →
      ¬ e.IsIdentityCast s →
        (e.isUnaryOrLogical = false → c.line = own.line) ∧
          (e.isUnaryOrLogical = true → c.line = e.lastLine own.line)) ∧
    ∀ (type : Ty) (name : Token) (initial : Option Expr),
      (Stmt.declare type name initial).lower.run s = (.ok c, t) → c.line = name.line := by
  constructor
  · intro e own hlower hown hcast
    have hlowers := Expr.lowers_of_lower hlower
    exact ⟨hlowers.code_line_own hown hcast, hlowers.code_line_last hown⟩
  · intro type name initial hlower
    cases Stmt.lowers_of_lower _ hlower with
    | declare | declareInit => rfl

/-- The state in which a variable `x` is declared. -/
def Lowering.withX : Lowering := ⟨⟨[⟨0, .int, "x"⟩], []⟩, 1, 1⟩

/-- `( double ) x` on lines 2 and 3. -/
def castAbove : Expr := .cast ⟨.typeCast, "double", 2, none⟩ (.var ⟨.identifier, "x", 3, none⟩)

/-- The cast stays on its line, and so does a declaration that ends with it. -/
theorem lower_lines_cast :
    ∃ c t d u, castAbove.lower.run .withX = (.ok c, t) ∧ ¬ castAbove.IsIdentityCast .withX ∧
      (castAbove.isUnaryOrLogical = false → c.line = 2) ∧
      (Stmt.declare .double ⟨.identifier, "y", 1, none⟩ (some castAbove)).lower.run .withX =
        (.ok d, u) ∧ d.line = 1 := by
  have hcast : ¬ castAbove.IsIdentityCast .withX := by
    rintro ⟨target, operand, c, t, heq, hrun, htype⟩
    cases heq
    cases hrun
    exact absurd htype (by decide)
  obtain ⟨c, t, hc⟩ : ∃ c t, castAbove.lower.run .withX = (.ok c, t) := ⟨_, _, rfl⟩
  obtain ⟨d, u, hd⟩ : ∃ d u, (Stmt.declare .double ⟨.identifier, "y", 1, none⟩
      (some castAbove)).lower.run .withX = (.ok d, u) := ⟨_, _, rfl⟩
  have hline := ((lower_lines .withX t c).1 castAbove _ hc rfl hcast).1
  exact ⟨c, t, d, u, hc, hcast, hline, hd, (lower_lines .withX u d).2 _ _ _ hd⟩

/-- `- x` on lines 2 and 3. -/
def negationAbove : Expr := .unary ⟨.minus, "-", 2, none⟩ (.var ⟨.identifier, "x", 3, none⟩)

/-- `true && x` with the operator on line 2 and the variable on line 3. -/
def conjunctionAbove : Expr :=
  .logical (.literal (.bool true)) ⟨.and, "&&", 2, none⟩ (.var ⟨.identifier, "x", 3, none⟩)

/-- The code for an operator on line 2 is put on the line of the operand behind it. -/
theorem lower_lines_negation :
    (∃ c t, negationAbove.lower.run .withX = (.ok c, t) ∧ c.line = 3) ∧
      negationAbove.token? = some ⟨.minus, "-", 2, none⟩ ∧
      (∃ c t, conjunctionAbove.lower.run .withX = (.ok c, t) ∧ c.line = 3) ∧
      conjunctionAbove.token? = some ⟨.and, "&&", 2, none⟩ :=
  ⟨⟨_, _, rfl, rfl⟩, rfl, ⟨_, _, rfl, rfl⟩, rfl⟩

end SlotScript
