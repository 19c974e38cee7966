import SlotScript.Proofs.Grammar
import SlotScript.Proofs.Reads

/-! # Readings are derivations

What the reader takes for a goal is derived from the goal's symbol, with the same
tree (`derived_of_reads`).  Conversely a derivation is read wherever the tokens
behind it cannot carry it on (`readable_of_derives`).  Each symbol has its own such
condition: behind a unary expression stands no `++` or `--`, behind an expression of
a tier also no operator that binds tighter, behind an assignment no operator at all. -/

namespace SlotScript.Grammar

open Token.Kind

namespace Tier

/-- The levels that the reader works through for an operand of the tier. -/
def tighter (t : Tier) : List Level := levels.drop (t.ctorIdx + 1)

/-- A tier's operands are the next tier's expressions, or unary ones. -/
theorem operand_cases (t : Tier) :
    (∃ u : Tier, t.operand = .tier u ∧ t.tighter = u.operators :: u.tighter) ∨
      t.operand = .unary ∧ t.tighter = [] := by
  cases t with
  | or => exact .inl ⟨.and, rfl, rfl⟩
  | and => exact .inl ⟨.equality, rfl, rfl⟩
  | equality => exact .inl ⟨.comparison, rfl, rfl⟩
  | comparison => exact .inl ⟨.bitOr, rfl, rfl⟩
  | bitOr => exact .inl ⟨.bitXor, rfl, rfl⟩
  | bitXor => exact .inl ⟨.bitAnd, rfl, rfl⟩
  | bitAnd => exact .inl ⟨.shift, rfl, rfl⟩
  | shift => exact .inl ⟨.term, rfl, rfl⟩
  | term => exact .inl ⟨.factor, rfl, rfl⟩
  | factor => exact .inl ⟨.exponent, rfl, rfl⟩
  | exponent => exact .inr ⟨rfl, rfl⟩

theorem levels_eq : levels = or.operators :: or.tighter := rfl

/-- No operator of a tier binds tighter, or steps. -/
theorem not_mem_tighter {t : Tier} {k : Token.Kind} (h : k ∈ t.operators) :
    k ∉ t.tighter.flatten ++ steps := by
  revert k
  cases t <;> decide

/-- The reader joins two operands as the grammar does. -/
theorem join_eq_node {t : Tier} {op : Token} (h : op.kind ∈ t.operators) (left right : Expr) :
    left.join op right = t.node left op right := by
  unfold Expr.join
  cases t with
  | or => exact if_pos (.inl (List.mem_singleton.mp h))
  | and => exact if_pos (.inr (List.mem_singleton.mp h))
  | _ =>
      have hk : ¬(op.kind = .or ∨ op.kind = .and) := by
        revert h
        generalize op.kind = k
        revert k
        decide
      exact if_neg hk

end Tier

/-- Only a name derives a variable. -/
theorem derives_var {s : Symbol} {used : List Token} {name : Token}
    (h : Derives s used (.var name)) : used = [name] ∧ name.kind = .identifier := by
  generalize he : Expr.var name = e at h
  induction h with
  | unassigned _ ih | operand _ _ ih | postfixed _ ih | primary _ ih => exact ih he
  | var hname =>
      obtain rfl := Expr.var.inj he
      exact ⟨rfl, hname⟩
  | operator t => cases t <;> nomatch he
  | _ => nomatch he

/-- An assignment's operator is `=` or that of a compound assignment. -/
theorem derives_assign {name op : Token} {ts : List Token} {e : Expr}
    (hname : name.kind = .identifier) (hop : op.kind ∈ assignments)
    (h : Derives .assignment ts e) :
    Derives .assignment (name :: op :: ts) (.assign name (.assigned name op e)) := by
  simp only [assignments, List.mem_cons, List.not_mem_nil, or_false] at hop
  unfold Expr.assigned
  rcases hop with hk | hk | hk | hk | hk | hk | hk
  · rw [hk]
    exact .assign hname hk h
  all_goals
    rw [hk]
    exact .compound hname (by rw [hk]; decide) h

/-! ## What is read is derived -/

/-- The levels that the reader works through for a symbol. -/
def Symbol.levels : Symbol → Option (List Level)
  | .tier t => some (t.operators :: t.tighter)
  | .unary => some []
  | _ => none

theorem Tier.operand_levels (t : Tier) : t.operand.levels = some t.tighter := by
  rcases t.operand_cases with ⟨u, hoperand, htighter⟩ | ⟨hoperand, htighter⟩ <;>
    rw [hoperand, htighter] <;> rfl

/-- What the tokens taken for a goal derive. -/
def Derived : Goal → List Token → Expr → Prop
  | .assignment, used, e => Derives .assignment used e
  | .level ls, used, e => ∀ s : Symbol, s.levels = some ls → Derives s used e
  | .more l tighter left, used, e =>
    ∀ t : Tier, t.operators = l → t.tighter = tighter →
      ∀ before, Derives (.tier t) before left → Derives (.tier t) (before ++ used) e
  | .unary, used, e => Derives .unary used e
  | .suffixed, used, e => Derives .postfixed used e
  | .primary, used, e => Derives .primary used e

/-- The tokens that a goal takes are derived, with the tree that is read. -/
theorem derived_of_reads {goal : Goal} {ts rest : List Token} {e : Expr}
    (h : Reads goal ts e rest) : ∃ used, ts = used ++ rest ∧ Derived goal used e := by
  induction h with
  | unassigned _ _ ih =>
      obtain ⟨used, rfl, ih⟩ := ih
      exact ⟨used, rfl, .unassigned (ih (.tier .or) rfl)⟩
  | @assign ts mid rest name op value _ hop _ ihLeft ihValue =>
      obtain ⟨used, rfl, ihLeft⟩ := ihLeft
      obtain ⟨used', rfl, ihValue⟩ := ihValue
      -- A target is checked only after it was read, so it is a name by its tree.
      obtain ⟨rfl, hname⟩ := derives_var (ihLeft (.tier .or) rfl)
      exact ⟨name :: op :: used', rfl, derives_assign hname hop ihValue⟩
  | tightest _ ih =>
      obtain ⟨used, rfl, ih⟩ := ih
      refine ⟨used, rfl, fun s hs => ?_⟩
      cases s with
      | unary => exact ih
      | _ => nomatch hs
  | level _ _ ihLeft ihMore =>
      obtain ⟨used, rfl, ihLeft⟩ := ihLeft
      obtain ⟨used', rfl, ihMore⟩ := ihMore
      refine ⟨used ++ used', (List.append_assoc ..).symm, fun s hs => ?_⟩
      cases s with
      | tier t =>
          obtain ⟨rfl, rfl⟩ := List.cons.inj (Option.some.inj hs)
          have hleft := ihLeft t.operand t.operand_levels
          exact ihMore t rfl rfl used (.operand t hleft)
      | _ => nomatch hs
  | noMore _ =>
      refine ⟨[], rfl, fun t _ _ before hbefore => ?_⟩
      rw [List.append_nil]
      exact hbefore
  | @more l tighter left right e op ts mid rest hop _ _ ihRight ihMore =>
      obtain ⟨used, rfl, ihRight⟩ := ihRight
      obtain ⟨used', rfl, ihMore⟩ := ihMore
      refine ⟨op :: used ++ used', by simp, ?_⟩
      rintro t rfl rfl before hbefore
      -- `before`, the operator and `used` derive the left operand of what is still to come.
      have hright := ihRight t.operand t.operand_levels
      have hjoin := Derives.operator t hbefore hop hright
      rw [← Tier.join_eq_node hop] at hjoin
      rw [← List.append_assoc]
      exact ihMore t rfl rfl _ hjoin
  | @stepBefore op target ts rest hop _ ih =>
      obtain ⟨used, rfl, ih⟩ := ih
      obtain ⟨rfl, hname⟩ := derives_var ih
      exact ⟨[op, target], rfl, .stepBefore hop hname⟩
  | @unary op ts rest e hop _ ih =>
      obtain ⟨used, rfl, ih⟩ := ih
      exact ⟨op :: used, rfl, .unary hop ih⟩
  | suffixed _ _ ih =>
      obtain ⟨used, rfl, ih⟩ := ih
      exact ⟨used, rfl, .postfixed ih⟩
  | @stepBehind op target ts rest _ hop ih =>
      obtain ⟨used, rfl, ih⟩ := ih
      obtain ⟨rfl, hname⟩ := derives_var ih
      exact ⟨[target, op], rfl, .stepBehind hname hop⟩
  | primary _ _ ih =>
      obtain ⟨used, rfl, ih⟩ := ih
      exact ⟨used, rfl, .primary ih⟩
  | @falseWord t rest hk => exact ⟨[t], rfl, .falseWord hk⟩
  | @trueWord t rest hk => exact ⟨[t], rfl, .trueWord hk⟩
  | @nullWord t rest hk => exact ⟨[t], rfl, .nullWord hk⟩
  | @literal t v rest hk hv => exact ⟨[t], rfl, .literal hk hv⟩
  | @var t rest hk => exact ⟨[t], rfl, .var hk⟩
  | @cast t ts rest e hk _ ih =>
      obtain ⟨used, rfl, ih⟩ := ih
      exact ⟨t :: used, rfl, .cast hk ih⟩
  | @group l r ts rest e hl _ hr ih =>
      obtain ⟨used, rfl, ih⟩ := ih
      exact ⟨l :: (used ++ [r]), by simp, .group hl ih hr⟩

/-! ## What is derived is read -/

/-- The kinds that a primary expression starts with. -/
def primaries : List Token.Kind :=
  [.number, .string, .character, .trueWord, .falseWord, .nullWord, .identifier, .typeCast,
    .leftParen]

/-- The kinds that a derivation from the symbol starts with. -/
def Symbol.starts : Symbol → List Token.Kind
  | .postfixed | .primary => primaries
  | _ => unaries ++ steps ++ primaries

theorem Tier.operand_starts (t : Tier) : t.operand.starts = unaries ++ steps ++ primaries := by
  cases t <;> rfl

/-- What is derived from a symbol is not empty, and starts as the symbol demands. -/
theorem starts_of_derives {s : Symbol} {ts : List Token} {e : Expr} (h : Derives s ts e) :
    ∃ t rest, ts = t :: rest ∧ t.kind ∈ s.starts := by
  induction h with
  | assign hname _ _ _ | compound hname _ _ _ =>
      exact ⟨_, _, rfl, by rw [hname]; decide⟩
  | unassigned _ ih | primary _ ih => exact ih
  | operand t _ ih =>
      rw [t.operand_starts] at ih
      exact ih
  | operator t _ _ _ ih _ =>
      obtain ⟨first, others, rfl, hfirst⟩ := ih
      exact ⟨first, _, rfl, hfirst⟩
  | unary hop _ _ => exact ⟨_, _, rfl, List.mem_append_left _ (List.mem_append_left _ hop)⟩
  | stepBefore hop _ => exact ⟨_, _, rfl, List.mem_append_left _ (List.mem_append_right _ hop)⟩
  | postfixed _ ih =>
      obtain ⟨first, others, rfl, hfirst⟩ := ih
      exact ⟨first, others, rfl, List.mem_append_right _ hfirst⟩
  | stepBehind hk _ | trueWord hk | falseWord hk | nullWord hk | var hk | cast hk _ _
  | group hk _ _ _ => exact ⟨_, _, rfl, by rw [hk]; decide⟩
  | @literal t _ hk _ => exact ⟨t, [], rfl, List.mem_append_left _ hk⟩

/-- The tokens are read as the symbol's expression `e`, whatever stands behind them
that does not carry the expression on.  Operators of a tier's own may follow: what
the reader makes of them then is made of the whole. -/
def Readable : Symbol → List Token → Expr → Prop
  | .assignment, ts, e =>
    ∀ rest, Stops assignments rest → Stops (levels.flatten ++ steps) rest →
      Reads .assignment (ts ++ rest) e rest
  | .tier t, ts, e =>
    ∀ rest e' rest', Stops (t.tighter.flatten ++ steps) rest →
      Reads (.more t.operators t.tighter e) rest e' rest' →
        Reads (.level (t.operators :: t.tighter)) (ts ++ rest) e' rest'
  | .unary, ts, e => ∀ rest, Stops steps rest → Reads .unary (ts ++ rest) e rest
  | .postfixed, ts, e => ∀ rest, Stops steps rest → Reads .suffixed (ts ++ rest) e rest
  | .primary, ts, e => ∀ rest, Stops steps rest → Reads .primary (ts ++ rest) e rest

/-- An operand of a tier is read where no tighter operator stands behind it. -/
theorem Readable.operand {t : Tier} {ts : List Token} {e : Expr} (h : Readable t.operand ts e)
    {rest : List Token} (hrest : Stops (t.tighter.flatten ++ steps) rest) :
    Reads (.level t.tighter) (ts ++ rest) e rest := by
  rcases t.operand_cases with ⟨u, hoperand, htighter⟩ | ⟨hoperand, htighter⟩
  · rw [hoperand] at h
    rw [htighter, List.flatten_cons, List.append_assoc, stops_append] at hrest
    rw [htighter]
    exact h rest e rest hrest.2 (.noMore hrest.1)
  · rw [hoperand] at h
    rw [htighter] at hrest ⊢
    exact .tightest (h rest hrest)

theorem stops_of_primaries {t : Token} {ts : List Token} (h : t.kind ∈ primaries) :
    Stops (steps ++ unaries) (t :: ts) := by
  rw [stops_cons]
  revert h
  generalize t.kind = k
  revert k
  decide

/-- A variable is read at every level, where no operator of the level or of a
tighter one stands behind it. -/
theorem reads_var {name : Token} (hname : name.kind = .identifier) {rest : List Token} :
    ∀ ls : List Level, Stops (ls.flatten ++ steps) rest →
      Reads (.level ls) (name :: rest) (.var name) rest
  | [], hrest => by
      have hstart : Stops (steps ++ unaries) (name :: rest) :=
        stops_of_primaries (by rw [hname]; decide)
      exact .tightest (.suffixed hstart (.primary (.var hname) hrest))
  | l :: tighter, hrest => by
      rw [List.flatten_cons, List.append_assoc, stops_append] at hrest
      exact .level (reads_var hname tighter hrest.2) (.noMore hrest.1)

/-- The operator of an assignment is of no level, and does not step. -/
theorem stops_of_assignments {op : Token} {ts : List Token} (h : op.kind ∈ assignments) :
    Stops (levels.flatten ++ steps) (op :: ts) := by
  rw [stops_cons]
  revert h
  generalize op.kind = k
  revert k
  decide

theorem reads_assign {name op : Token} {ts rest : List Token} {e : Expr}
    (hname : name.kind = .identifier) (hop : op.kind ∈ assignments)
    (h : Reads .assignment ts e rest) :
    Reads .assignment (name :: op :: ts) (.assign name (.assigned name op e)) rest :=
  .assign (reads_var hname levels (stops_of_assignments hop)) hop h

/-- The reader stores what the grammar says a compound assignment stores. -/
theorem assigned_of_compounds {op : Token} {base : Token.Kind} (h : (op.kind, base) ∈ compounds)
    (name : Token) (e : Expr) :
    op.kind ∈ assignments ∧ Expr.assigned name op e = .binary (.var name) (op.withoutEqual base) e := by
  unfold Expr.assigned
  simp only [compounds, List.mem_cons, Prod.mk.injEq, List.not_mem_nil, or_false] at h
  rcases h with ⟨hk, rfl⟩ | ⟨hk, rfl⟩ | ⟨hk, rfl⟩ | ⟨hk, rfl⟩ | ⟨hk, rfl⟩ | ⟨hk, rfl⟩ <;>
    rw [hk] <;> exact ⟨by decide, rfl⟩

/-- What is derived can be read, with the tree of the derivation. -/
theorem readable_of_derives {s : Symbol} {ts : List Token} {e : Expr} (h : Derives s ts e) :
    Readable s ts e := by
  induction h with
  | @assign name op ts e hname hop _ ih =>
      intro rest hassign hrest
      have hmem : op.kind ∈ assignments := by rw [hop]; decide
      have hvalue : Expr.assigned name op e = e := by rw [Expr.assigned, hop]; rfl
      have hread := reads_assign hname hmem (ih rest hassign hrest)
      rw [hvalue] at hread
      exact hread
  | @compound name op base ts e hname hop _ ih =>
      intro rest hassign hrest
      obtain ⟨hmem, hvalue⟩ := assigned_of_compounds hop name e
      have hread := reads_assign hname hmem (ih rest hassign hrest)
      rw [hvalue] at hread
      exact hread
  | @unassigned ts e _ ih =>
      intro rest hassign hrest
      rw [Tier.levels_eq, List.flatten_cons, List.append_assoc, stops_append] at hrest
      exact .unassigned (ih rest e rest hrest.2 (.noMore hrest.1)) hassign
  | operand t _ ih =>
      intro rest e' rest' hrest hmore
      exact .level (ih.operand hrest) hmore
  | @operator t before behind op left right _ hop _ ihLeft ihRight =>
      intro rest e' rest' hrest hmore
      have hright := ihRight.operand hrest
      -- Behind `left` the reader meets `op` first, and goes on with the two joined.
      rw [← Tier.join_eq_node hop] at hmore
      rw [List.append_assoc]
      exact ihLeft (op :: behind ++ rest) e' rest' (stops_cons.mpr (Tier.not_mem_tighter hop))
        (.more hop hright hmore)
  | unary hop _ ih => exact fun rest hrest => .unary hop (ih rest hrest)
  | @stepBefore op name hop hname =>
      intro rest hrest
      have hstart : Stops (steps ++ unaries) (name :: rest) :=
        stops_of_primaries (by rw [hname]; decide)
      exact .stepBefore hop (.suffixed hstart (.primary (.var hname) hrest))
  | postfixed h ih =>
      intro rest hrest
      obtain ⟨first, others, rfl, hfirst⟩ := starts_of_derives h
      exact .suffixed (stops_of_primaries hfirst) (ih rest hrest)
  | stepBehind hname hop => exact fun rest _ => .stepBehind (.var hname) hop
  | primary _ ih => exact fun rest hrest => .primary (ih rest hrest) hrest
  | literal hk hv => exact fun rest _ => .literal hk hv
  | trueWord hk => exact fun rest _ => .trueWord hk
  | falseWord hk => exact fun rest _ => .falseWord hk
  | nullWord hk => exact fun rest _ => .nullWord hk
  | var hk => exact fun rest _ => .var hk
  | cast hk _ ih => exact fun rest hrest => .cast hk (ih rest hrest)
  | @group l r ts e hl _ hr ih =>
      intro rest _
      have hstop : Stops assignments (r :: rest) ∧ Stops (levels.flatten ++ steps) (r :: rest) := by
        rw [stops_cons, stops_cons, hr]
        decide
      have hinner := ih (r :: rest) hstop.1 hstop.2
      rw [List.cons_append, List.append_assoc]
      exact .group hl hinner hr

end SlotScript.Grammar
