import SlotScript.Lowering
import SlotScript.Proofs.Resumption

/-! # Compound assignments

`x op= e` is an abbreviation of `x = x op ( e )`.  Both forms are derived from the grammar
for every expression `e`, however loosely its operators bind (`Abbreviation.derives_short`,
`Abbreviation.derives_long`).  The trees differ in two ways only: the short form has no
parentheses around `e`, and its operator is cut out of the token `op=`.  Lowering looks at
neither (`Token.Matches`), so both forms become the same code or fail with the same error. -/

namespace SlotScript

open Grammar

/-! ### Expressions as whole programs -/

/-- No derivation contains an end mark. -/
theorem ne_eof_of_derives {s : Symbol} {ts : List Token} {e : Expr} (h : Derives s ts e) :
    ∀ t ∈ ts, t.kind ≠ .eof := by
  have hmem : ∀ {k : Token.Kind} {ks : List Token.Kind}, k ∈ ks → .eof ∉ ks → k ≠ .eof := by
    intro k ks hk hks heof
    rw [heof] at hk
    exact hks hk
  induction h with
  | assign hname hop _ ih =>
      simp only [List.forall_mem_cons]
      exact ⟨by simp [hname], by simp [hop], ih⟩
  | compound hname hop _ ih =>
      simp only [List.forall_mem_cons]
      exact ⟨by simp [hname], hmem (List.mem_map_of_mem (f := Prod.fst) hop) (by decide), ih⟩
  | unassigned _ ih | operand _ _ ih | postfixed _ ih | primary _ ih => exact ih
  | operator t _ hop _ ihleft ihright =>
      simp only [List.forall_mem_append, List.forall_mem_cons]
      exact ⟨ihleft, hmem hop (by cases t <;> decide), ihright⟩
  | unary hop _ ih =>
      simp only [List.forall_mem_cons]
      exact ⟨hmem hop (by decide), ih⟩
  | stepBefore hop hname | stepBehind hname hop =>
      simp only [List.forall_mem_cons]
      have hstep := hmem hop (by decide)
      simp [hname, hstep]
  | literal hkind _ =>
      rw [List.forall_mem_singleton]
      exact hmem hkind (by decide)
  | trueWord hkind | falseWord hkind | nullWord hkind | var hkind =>
      simp [hkind]
  | cast htarget _ ih =>
      simp only [List.forall_mem_cons]
      exact ⟨by simp [htarget], ih⟩
  | group hleft _ hright ih =>
      simp only [List.forall_mem_cons, List.forall_mem_append]
      exact ⟨by simp [hleft], ih, by simp [hright]⟩

/-- An expression and a semicolon are a program of one statement. -/
theorem parse_of_derives {ts ends : List Token} {semicolon : Token} {e : Expr}
    (h : Derives .assignment ts e) (hsemi : semicolon.kind = .semicolon)
    (hends : ∀ t ∈ ends.head?, t.kind = .eof) :
    parse (ts ++ semicolon :: ends) = ⟨[.expression e], []⟩ := by
  have hprogram : programOf (ts ++ semicolon :: ends) = ts ++ [semicolon] := by
    have hends' : programOf ends = [] := by
      cases ends with
      | nil => rfl
      | cons t others => simp [programOf, hends t rfl]
    have hts : ∀ t ∈ ts, (!(t.kind == .eof)) = true := by simpa using ne_eof_of_derives h
    unfold programOf at hends' ⊢
    rw [List.takeWhile_append_of_pos hts, List.takeWhile_cons, hsemi, hends']
    rfl
  have hall : DeclaresAll (ts ++ [semicolon]) [.expression e] := by
    have hone := DeclaresAll.cons (.expression h hsemi) .nil
    rwa [List.append_nil] at hone
  rw [parse_eq, hprogram]
  exact ((Body.apart_of_declaresAll hall).eq_parsed _).symm

/-! ### Operators behind a name -/

theorem derives_of_term {ts : List Token} {e : Expr} (h : Derives (.tier .term) ts e) :
    Derives .assignment ts e :=
  .unassigned <| .operand .or <| .operand .and <| .operand .equality <| .operand .comparison <|
    .operand .bitOr <| .operand .bitXor <| .operand .bitAnd <| .operand .shift h

/-- The tiers of the operators that an assignment can apply. -/
theorem tier_of_compounds {k base : Token.Kind} (h : (k, base) ∈ compounds) :
    base ∈ Tier.term.operators ∨ base ∈ Tier.factor.operators ∨
      base ∈ Tier.exponent.operators := by
  have hall : ∀ b ∈ compounds.map Prod.snd, b ∈ Tier.term.operators ∨
      b ∈ Tier.factor.operators ∨ b ∈ Tier.exponent.operators := by decide
  exact hall base (List.mem_map_of_mem (f := Prod.snd) h)

/-- A name and what binds tightest are the operands of any operator that an assignment can
apply. -/
theorem derives_applied {name op : Token} {k : Token.Kind} {ts : List Token} {e : Expr}
    (hname : name.kind = .identifier) (hop : (k, op.kind) ∈ compounds)
    (h : Derives .primary ts e) :
    Derives .assignment (name :: op :: ts) (.binary (.var name) op e) := by
  have hleft : Derives (.tier .exponent) [name] (.var name) :=
    .operand .exponent (.postfixed (.primary (.var hname)))
  have hright : Derives .unary ts e := .postfixed (.primary h)
  -- Below its own tier the operator's operands have to be lifted, above it the whole.
  apply derives_of_term
  rcases tier_of_compounds hop with hterm | hfactor | hexponent
  · exact .operator .term (.operand .term (.operand .factor hleft)) hterm
      (.operand .factor (.operand .exponent hright))
  · exact .operand .term (.operator .factor (.operand .factor hleft) hfactor
      (.operand .exponent hright))
  · exact .operand .term (.operand .factor (.operator .exponent hleft hexponent hright))

/-! ### Tokens that lowering does not tell apart -/

/-- The tokens have the same text, in the same role and on the same line. -/
structure Token.Matches (t u : Token) : Prop where
  kind : t.kind = u.kind
  lexeme : t.lexeme = u.lexeme
  line : t.line = u.line

namespace Token.Matches

variable {t u : Token} (h : t.Matches u)
include h

theorem visit_eq : Lowering.visit t = Lowering.visit u := by
  rw [Lowering.visit, Lowering.visit, h.line]

theorem checkAt_eq {α : Type} (r : Except LowerFault α) :
    Lowering.checkAt t r = Lowering.checkAt u r := by
  have herror : LowerError.atToken t = LowerError.atToken u := by
    funext fault
    simp only [LowerError.atToken, Location.ofToken, h.kind, h.lexeme, h.line]
  rw [Lowering.checkAt, Lowering.checkAt, herror]

theorem resolve_eq : Lowering.resolve t = Lowering.resolve u := by
  simp only [Lowering.resolve, h.lexeme, h.checkAt_eq]

theorem combine_eq (left right : Code) : left.combine t right = left.combine u right := by
  simp only [Code.combine, h.kind, h.lexeme, h.line]

theorem lower_var : (Expr.var t).lower = (Expr.var u).lower := by
  simp only [Expr.lower, h.visit_eq, h.resolve_eq, h.line]

theorem lower_assign {v w : Expr} (hvalue : v.lower = w.lower) :
    (Expr.assign t v).lower = (Expr.assign u w).lower := by
  simp only [Expr.lower, h.visit_eq, h.resolve_eq, h.checkAt_eq, h.line, hvalue]

theorem lower_binary {l l' r r' : Expr} (hleft : l.lower = l'.lower)
    (hright : r.lower = r'.lower) : (Expr.binary l t r).lower = (Expr.binary l' u r').lower := by
  simp only [Expr.lower, h.visit_eq, h.checkAt_eq, h.combine_eq, hleft, hright]

end Token.Matches

/-- An operator cut out of a compound one is the operator itself. -/
theorem Token.matches_withoutEqual {compound op : Token}
    (hlexeme : compound.lexeme = op.lexeme ++ "=") (hline : compound.line = op.line) :
    op.Matches (compound.withoutEqual op.kind) where
  kind := rfl
  lexeme := by
    have hlist : compound.lexeme.toList = op.lexeme.toList ++ ['='] := by
      rw [hlexeme, String.toList_append]
      rfl
    simp [Token.withoutEqual, hlist]
  line := hline.symm

/-! ### The two forms -/

/-- The tokens around an expression in a compound assignment, `name compound … semicolon`,
and in the assignment that it abbreviates, `target equal operand op left … right closing`.
The names and the operators of the two correspond; all else may stand on any line. -/
structure Abbreviation where
  name : Token
  compound : Token
  semicolon : Token
  target : Token
  equal : Token
  operand : Token
  op : Token
  left : Token
  right : Token
  closing : Token
  name_kind : name.kind = .identifier
  target_matches : target.Matches name
  operand_matches : operand.Matches name
  compound_kind : (compound.kind, op.kind) ∈ compounds
  compound_lexeme : compound.lexeme = op.lexeme ++ "="
  compound_line : compound.line = op.line
  equal_kind : equal.kind = .equal
  left_kind : left.kind = .leftParen
  right_kind : right.kind = .rightParen
  semicolon_kind : semicolon.kind = .semicolon
  closing_kind : closing.kind = .semicolon

namespace Abbreviation

variable (a : Abbreviation) {ts : List Token} {e : Expr}

/-- The compound assignment of an expression. -/
def short (ts : List Token) : List Token := a.name :: a.compound :: ts ++ [a.semicolon]

/-- The plain assignment of an expression. -/
def long (ts : List Token) : List Token :=
  a.target :: a.equal :: a.operand :: a.op :: a.left :: (ts ++ [a.right]) ++ [a.closing]

/-- The tree of the compound assignment. -/
def shortTree (e : Expr) : Expr :=
  .assign a.name (.binary (.var a.name) (a.compound.withoutEqual a.op.kind) e)

/-- The tree of the plain assignment. -/
def longTree (e : Expr) : Expr := .assign a.target (.binary (.var a.operand) a.op (.grouping e))

theorem parse_short (h : Derives .assignment ts e) {ends : List Token}
    (hends : ∀ t ∈ ends.head?, t.kind = .eof) :
    parse (a.short ts ++ ends) = ⟨[.expression (a.shortTree e)], []⟩ := by
  have hshort : Derives .assignment (a.name :: a.compound :: ts) (a.shortTree e) :=
    .compound a.name_kind a.compound_kind h
  rw [short, List.append_assoc]
  exact parse_of_derives hshort a.semicolon_kind hends

theorem parse_long (h : Derives .assignment ts e) {ends : List Token}
    (hends : ∀ t ∈ ends.head?, t.kind = .eof) :
    parse (a.long ts ++ ends) = ⟨[.expression (a.longTree e)], []⟩ := by
  have htarget : a.target.kind = .identifier := a.target_matches.kind.trans a.name_kind
  have hoperand : a.operand.kind = .identifier := a.operand_matches.kind.trans a.name_kind
  have hgroup : Derives .primary (a.left :: (ts ++ [a.right])) (.grouping e) :=
    .group a.left_kind h a.right_kind
  have hlong : Derives .assignment _ (a.longTree e) :=
    .assign htarget a.equal_kind (derives_applied hoperand a.compound_kind hgroup)
  rw [long, List.append_assoc]
  exact parse_of_derives hlong a.closing_kind hends

theorem lower_long (e : Expr) : (a.longTree e).lower = (a.shortTree e).lower := by
  have hop := Token.matches_withoutEqual a.compound_lexeme a.compound_line
  have hgroup : (Expr.grouping e).lower = e.lower := by rw [Expr.lower]
  exact a.target_matches.lower_assign (hop.lower_binary a.operand_matches.lower_var hgroup)

/-- Around any expression, a compound assignment and the assignment that it abbreviates are
programs of one statement each, and from every state of lowering the two statements give the
same code or the same error, and the same state. -/
theorem parse_short_lowers_as_long {last : Nat} (hread : Expr.read last ts = .done e ts.length)
    {ends ends' : List Token} (hends : ∀ t ∈ ends.head?, t.kind = .eof)
    (hends' : ∀ t ∈ ends'.head?, t.kind = .eof) :
    parse (a.short ts ++ ends) = ⟨[.expression (a.shortTree e)], []⟩ ∧
      parse (a.long ts ++ ends') = ⟨[.expression (a.longTree e)], []⟩ ∧
      ∀ s : Lowering, (Stmt.expression (a.shortTree e)).lower.run s =
        (Stmt.expression (a.longTree e)).lower.run s := by
  have hleaves : (Expr.read last ts).Leaves ts e [] := ⟨ts.length, hread, by simp⟩
  obtain ⟨used, hused, hderives⟩ := Expr.derives_of_leaves hleaves
  rw [List.append_nil] at hused
  subst hused
  refine ⟨a.parse_short hderives hends, a.parse_long hderives hends', ?_⟩
  intro s
  rw [Stmt.lower, Stmt.lower, a.lower_long]

/-- `x **= … ;` and `x = x ** ( … ) ;`, with the semicolon of the first on a line of its own
and the parentheses of the second on two. -/
def raising : Abbreviation where
  name := ⟨.identifier, "x", 1, none⟩
  compound := ⟨.powerEqual, "**=", 1, none⟩
  semicolon := ⟨.semicolon, ";", 3, none⟩
  target := ⟨.identifier, "x", 1, none⟩
  equal := ⟨.equal, "=", 1, none⟩
  operand := ⟨.identifier, "x", 1, none⟩
  op := ⟨.power, "**", 1, none⟩
  left := ⟨.leftParen, "(", 1, none⟩
  right := ⟨.rightParen, ")", 2, none⟩
  closing := ⟨.semicolon, ";", 2, none⟩
  name_kind := rfl
  target_matches := ⟨rfl, rfl, rfl⟩
  operand_matches := ⟨rfl, rfl, rfl⟩
  compound_kind := by decide
  compound_lexeme := rfl
  compound_line := rfl
  equal_kind := rfl
  left_kind := rfl
  right_kind := rfl
  semicolon_kind := rfl
  closing_kind := rfl

/-- `y -= z || 1` -/
def difference : List Token :=
  [⟨.identifier, "y", 2, none⟩, ⟨.minusEqual, "-=", 2, none⟩, ⟨.identifier, "z", 2, none⟩,
    ⟨.or, "||", 2, none⟩, ⟨.number, "1", 2, some (.int 1)⟩]

/-- `y = y - (z || 1)`, where no parentheses are kept. -/
def differenceTree : Expr :=
  let y : Token := ⟨.identifier, "y", 2, none⟩
  .assign y (.binary (.var y) ⟨.minus, "-", 2, none⟩
    (.logical (.var ⟨.identifier, "z", 2, none⟩) ⟨.or, "||", 2, none⟩ (.literal (.int 1))))

/-- `x **= y -= z || 1 ;` is `x = x ** ( y -= z || 1 ) ;`. -/
theorem parse_short_lowers_as_long_nested :
    Expr.read 2 difference = .done differenceTree difference.length ∧
      parse (raising.short difference ++ [⟨.eof, "", 3, none⟩]) =
        ⟨[.expression (raising.shortTree differenceTree)], []⟩ ∧
      parse (raising.long difference ++ [⟨.eof, "", 2, none⟩]) =
        ⟨[.expression (raising.longTree differenceTree)], []⟩ ∧
      ∀ s : Lowering, (Stmt.expression (raising.shortTree differenceTree)).lower.run s =
        (Stmt.expression (raising.longTree differenceTree)).lower.run s := by
  have hread : Expr.read 2 difference = .done differenceTree difference.length := by cbv
  exact ⟨hread, raising.parse_short_lowers_as_long hread (by simp) (by simp)⟩

end Abbreviation

end SlotScript
