import SlotScript.Proofs.Readings

/-! # Reading expressions by rules

`Reads goal ts e rest` says that the goal can be read off the front of the tokens `ts`
without a report, that its tree is `e`, and that the tokens `rest` remain.  The relation
has one rule for each way in which a goal can be met, with what has to follow where the
reader looks ahead.  It holds exactly when the reader says so
(`Goal.leaves_iff_reads`). -/

namespace SlotScript

open Reading

/-- The tokens do not start with one of these kinds. -/
def Stops (ks : List Token.Kind) (ts : List Token) : Prop := ∀ t rest, ts = t :: rest → t.kind ∉ ks

theorem stops_nil (ks : List Token.Kind) : Stops ks [] := by
  rintro _ _ ⟨⟩

theorem stops_cons {ks : List Token.Kind} {t : Token} {ts : List Token} :
    Stops ks (t :: ts) ↔ t.kind ∉ ks := by
  refine ⟨fun h => h t ts rfl, ?_⟩
  rintro hk _ _ ⟨⟩
  exact hk

theorem stops_append {ks ls : List Token.Kind} {ts : List Token} :
    Stops (ks ++ ls) ts ↔ Stops ks ts ∧ Stops ls ts := by
  cases ts with
  | nil => exact ⟨fun _ => ⟨stops_nil _, stops_nil _⟩, fun _ => stops_nil _⟩
  | cons t ts => rw [stops_cons, stops_cons, stops_cons, List.mem_append, not_or]

theorem stops_or_mem (ks : List Token.Kind) (ts : List Token) :
    Stops ks ts ∨ ∃ t rest, ts = t :: rest ∧ t.kind ∈ ks := by
  cases ts with
  | nil => exact .inl (stops_nil ks)
  | cons t ts =>
      by_cases ht : t.kind ∈ ks
      · exact .inr ⟨t, ts, rfl, ht⟩
      · exact .inl (stops_cons.mpr ht)

namespace Token.Kind

/-- The kinds that `isAssignment` accepts. -/
def assignments : List Kind :=
  [equal, plusEqual, minusEqual, starEqual, slashEqual, percentEqual, powerEqual]

/-- The kinds that `isStep` accepts. -/
def steps : List Kind := [increment, decrement]

/-- The kinds that `isUnary` accepts. -/
def unaries : List Kind := [bang, minus, bitNot]

theorem isAssignment_iff {k : Kind} : k.isAssignment = true ↔ k ∈ assignments := by
  simp [isAssignment, assignments]

theorem isStep_iff {k : Kind} : k.isStep = true ↔ k ∈ steps := by simp [isStep, steps]

theorem isUnary_iff {k : Kind} : k.isUnary = true ↔ k ∈ unaries := by simp [isUnary, unaries]

theorem not_mem_steps_of_mem_unaries {k : Kind} (h : k ∈ unaries) : k ∉ steps := by
  revert k
  decide

end Token.Kind

open Token.Kind

/-- The reading of a goal without reports. -/
inductive Reads : Goal → List Token → Expr → List Token → Prop
  | unassigned {ts rest : List Token} {e : Expr} :
      Reads (.level levels) ts e rest → Stops assignments rest → Reads .assignment ts e rest
  | assign {ts mid rest : List Token} {name op : Token} {value : Expr} :
      Reads (.level levels) ts (.var name) (op :: mid) → op.kind ∈ assignments →
      Reads .assignment mid value rest →
      Reads .assignment ts (.assign name (.assigned name op value)) rest
  | tightest {ts rest : List Token} {e : Expr} :
      Reads .unary ts e rest → Reads (.level []) ts e rest
  | level {l : Level} {tighter : List Level} {ts mid rest : List Token} {left e : Expr} :
      Reads (.level tighter) ts left mid → Reads (.more l tighter left) mid e rest →
      Reads (.level (l :: tighter)) ts e rest
  | noMore {l : Level} {tighter : List Level} {left : Expr} {ts : List Token} :
      Stops l ts → Reads (.more l tighter left) ts left ts
  | more {l : Level} {tighter : List Level} {left right e : Expr} {op : Token}
      {ts mid rest : List Token} :
      op.kind ∈ l → Reads (.level tighter) ts right mid →
      Reads (.more l tighter (left.join op right)) mid e rest →
      Reads (.more l tighter left) (op :: ts) e rest
  | stepBefore {op target : Token} {ts rest : List Token} :
      op.kind ∈ steps → Reads .unary ts (.var target) rest →
      Reads .unary (op :: ts) (.step op target true) rest
  | unary {op : Token} {ts rest : List Token} {e : Expr} :
      op.kind ∈ unaries → Reads .unary ts e rest → Reads .unary (op :: ts) (.unary op e) rest
  | suffixed {ts rest : List Token} {e : Expr} :
      Stops (steps ++ unaries) ts → Reads .suffixed ts e rest → Reads .unary ts e rest
  | stepBehind {op target : Token} {ts rest : List Token} :
      Reads .primary ts (.var target) (op :: rest) → op.kind ∈ steps →
      Reads .suffixed ts (.step op target false) rest
  | primary {ts rest : List Token} {e : Expr} :
      Reads .primary ts e rest → Stops steps rest → Reads .suffixed ts e rest
  | falseWord {t : Token} {rest : List Token} :
      t.kind = .falseWord → Reads .primary (t :: rest) (.literal (.bool false)) rest
  | trueWord {t : Token} {rest : List Token} :
      t.kind = .trueWord → Reads .primary (t :: rest) (.literal (.bool true)) rest
  | nullWord {t : Token} {rest : List Token} :
      t.kind = .nullWord → Reads .primary (t :: rest) (.literal .null) rest
  | literal {t : Token} {v : Literal} {rest : List Token} :
      t.kind ∈ [.number, .string, .character] → t.literal = some v →
      Reads .primary (t :: rest) (.literal v) rest
  | var {t : Token} {rest : List Token} :
      t.kind = .identifier → Reads .primary (t :: rest) (.var t) rest
  | cast {t : Token} {ts rest : List Token} {e : Expr} :
      t.kind = .typeCast → Reads .unary ts e rest → Reads .primary (t :: ts) (.cast t e) rest
  | group {l r : Token} {ts rest : List Token} {e : Expr} :
      l.kind = .leftParen → Reads .assignment ts e (r :: rest) → r.kind = .rightParen →
      Reads .primary (l :: ts) (.grouping e) rest

namespace Goal

variable {last : Nat} {e left : Expr} {t op : Token} {ts mid rest : List Token}

/-- The operators between operands that a goal goes through. -/
def operators : Goal → List Token.Kind
  | .level ls => ls.flatten
  | .more l tighter _ => l ++ tighter.flatten
  | _ => []

/-! ### What each goal leaves -/

/-- What the reader does behind the left side of an assignment. -/
def assignOrStop (last : Nat) (left : Expr) : List Token → Reading Expr
  | op :: ts =>
    if op.kind.isAssignment then
      ((read last .assignment ts).behind 1).andThen fun value _ => assignTo left op value
    else .done left 0
  | [] => .done left 0

theorem assignTo_leaves {value : Expr} :
    (assignTo left op value).Leaves ts e rest ↔
      ∃ name, left = .var name ∧ e = .assign name (.assigned name op value) ∧ ts = rest := by
  unfold assignTo
  split
  · rw [done_leaves]
    constructor
    · rintro ⟨rfl, rfl⟩
      exact ⟨_, rfl, rfl, rfl⟩
    · rintro ⟨_, ⟨⟩, rfl, rfl⟩
      exact ⟨rfl, rfl⟩
  · rename_i hleft
    constructor
    · rintro ⟨n, h, -⟩
      simp [done] at h
    · rintro ⟨name, rfl, -⟩
      exact absurd rfl (hleft name)

theorem stepOf_leaves {operand : Expr} {isPrefix : Bool} {n : Nat} :
    (stepOf op operand isPrefix n).Leaves ts e rest ↔
      ∃ target, operand = .var target ∧
        (done (.step op target isPrefix) n).Leaves ts e rest := by
  unfold stepOf
  split
  · simp
  · rename_i hoperand
    refine ⟨fun h => absurd h not_fail_leaves, ?_⟩
    rintro ⟨target, rfl, -⟩
    exact absurd rfl (hoperand target)

theorem literalOf_leaves :
    (literalOf t).Leaves (t :: ts) e rest ↔
      ∃ v, t.literal = some v ∧ e = .literal v ∧ ts = rest := by
  unfold literalOf
  split
  · rename_i v hv
    rw [done_one_leaves, hv]
    constructor
    · rintro ⟨rfl, rfl⟩
      exact ⟨v, rfl, rfl, rfl⟩
    · rintro ⟨_, ⟨⟩, rfl, rfl⟩
      exact ⟨rfl, rfl⟩
  · rename_i hv
    refine ⟨fun h => absurd h not_fail_leaves, ?_⟩
    rintro ⟨v, hv', -⟩
    rw [hv] at hv'
    cases hv'

theorem read_assignment :
    read last .assignment ts =
      (read last (.level levels) ts).andThen fun left n => assignOrStop last left (ts.drop n) := by
  rw [read]
  congr
  funext left n
  split
  · rename_i h
    rw [h, assignOrStop]
  · rename_i h
    rw [h, assignOrStop]

theorem leaves_assignment :
    (read last .assignment ts).Leaves ts e rest ↔
      ∃ left mid, (read last (.level levels) ts).Leaves ts left mid ∧
        (assignOrStop last left mid).Leaves mid e rest := by
  rw [read_assignment, andThen_leaves]

theorem assignOrStop_of_stops (h : Stops assignments ts) :
    assignOrStop last left ts = .done left 0 := by
  cases ts with
  | nil => rfl
  | cons op ts => rw [assignOrStop, if_neg (mt isAssignment_iff.mp (stops_cons.mp h))]

theorem assignOrStop_leaves (h : op.kind ∈ assignments) :
    (assignOrStop last left (op :: ts)).Leaves (op :: ts) e rest ↔
      ∃ name value, left = .var name ∧ (read last .assignment ts).Leaves ts value rest ∧
        e = .assign name (.assigned name op value) := by
  rw [assignOrStop, if_pos (isAssignment_iff.mpr h),
    behind_andThen_leaves fun value _ => assignTo left op value]
  simp only [assignTo_leaves]
  constructor
  · rintro ⟨value, _, hvalue, name, hleft, he, rfl⟩
    exact ⟨name, value, hleft, hvalue, he⟩
  · rintro ⟨name, value, hleft, hvalue, he⟩
    exact ⟨value, rest, hvalue, name, hleft, he, rfl⟩

theorem read_tightest : read last (.level []) ts = read last .unary ts := by
  rw [read]

theorem read_level {l : Level} {tighter : List Level} :
    read last (.level (l :: tighter)) ts =
      (read last (.level tighter) ts).andThen fun left n =>
        read last (.more l tighter left) (ts.drop n) := by
  rw [read]

theorem leaves_level {l : Level} {tighter : List Level} :
    (read last (.level (l :: tighter)) ts).Leaves ts e rest ↔
      ∃ left mid, (read last (.level tighter) ts).Leaves ts left mid ∧
        (read last (.more l tighter left) mid).Leaves mid e rest := by
  rw [read_level, andThen_leaves]

theorem read_more {l : Level} {tighter : List Level} (h : op.kind ∈ l) :
    read last (.more l tighter left) (op :: ts) =
      ((read last (.level tighter) ts).behind 1).andThen fun right n =>
        read last (.more l tighter (left.join op right)) (ts.drop (n - 1)) := by
  rw [read, if_pos h]

theorem leaves_more {l : Level} {tighter : List Level} (h : op.kind ∈ l) :
    (read last (.more l tighter left) (op :: ts)).Leaves (op :: ts) e rest ↔
      ∃ right mid, (read last (.level tighter) ts).Leaves ts right mid ∧
        (read last (.more l tighter (left.join op right)) mid).Leaves mid e rest := by
  rw [read_more h,
    behind_andThen_leaves fun right => read last (.more l tighter (left.join op right))]

theorem read_more_of_stops {l : Level} {tighter : List Level} (h : Stops l ts) :
    read last (.more l tighter left) ts = .done left 0 := by
  cases ts with
  | nil => rw [read]
  | cons op ts => rw [read, if_neg (stops_cons.mp h)]

theorem read_stepBefore (h : op.kind ∈ steps) :
    read last .unary (op :: ts) =
      ((read last .unary ts).behind 1).andThen fun operand _ => stepOf op operand true 0 := by
  rw [read, if_pos (isStep_iff.mpr h)]

theorem leaves_stepBefore (h : op.kind ∈ steps) :
    (read last .unary (op :: ts)).Leaves (op :: ts) e rest ↔
      ∃ target, (read last .unary ts).Leaves ts (.var target) rest ∧
        e = .step op target true := by
  rw [read_stepBefore h, behind_andThen_leaves fun operand _ => stepOf op operand true 0]
  simp only [stepOf_leaves, done_leaves]
  constructor
  · rintro ⟨_, _, hoperand, target, rfl, rfl, rfl⟩
    exact ⟨target, hoperand, rfl⟩
  · rintro ⟨target, hoperand, rfl⟩
    exact ⟨_, rest, hoperand, target, rfl, rfl, rfl⟩

theorem read_unary (h : op.kind ∈ unaries) :
    read last .unary (op :: ts) =
      ((read last .unary ts).behind 1).andThen fun operand _ => .done (.unary op operand) 0 := by
  have hstep := mt isStep_iff.mp (not_mem_steps_of_mem_unaries h)
  rw [read, if_neg hstep, if_pos (isUnary_iff.mpr h)]

theorem leaves_unary (h : op.kind ∈ unaries) :
    (read last .unary (op :: ts)).Leaves (op :: ts) e rest ↔
      ∃ operand, (read last .unary ts).Leaves ts operand rest ∧ e = .unary op operand := by
  rw [read_unary h, behind_build_leaves (Expr.unary op)]

theorem read_unary_of_stops (h : Stops (steps ++ unaries) ts) :
    read last .unary ts = read last .suffixed ts := by
  cases ts with
  | nil => rw [read]
  | cons op ts =>
      obtain ⟨hstep, hunary⟩ := stops_append.mp h
      rw [read, if_neg (mt isStep_iff.mp (stops_cons.mp hstep)),
        if_neg (mt isUnary_iff.mp (stops_cons.mp hunary))]

/-- What the reader does behind a primary expression. -/
def stepOrStop (operand : Expr) : List Token → Reading Expr
  | op :: _ => if op.kind.isStep then stepOf op operand false 1 else .done operand 0
  | [] => .done operand 0

theorem read_suffixed :
    read last .suffixed ts =
      (read last .primary ts).andThen fun operand n => stepOrStop operand (ts.drop n) := by
  rw [read]
  rfl

theorem leaves_suffixed :
    (read last .suffixed ts).Leaves ts e rest ↔
      ∃ operand mid, (read last .primary ts).Leaves ts operand mid ∧
        (stepOrStop operand mid).Leaves mid e rest := by
  rw [read_suffixed, andThen_leaves]

theorem stepOrStop_of_stops {operand : Expr} (h : Stops steps ts) :
    stepOrStop operand ts = .done operand 0 := by
  cases ts with
  | nil => rfl
  | cons op ts => rw [stepOrStop, if_neg (mt isStep_iff.mp (stops_cons.mp h))]

theorem stepOrStop_leaves {operand : Expr} (h : op.kind ∈ steps) :
    (stepOrStop operand (op :: ts)).Leaves (op :: ts) e rest ↔
      ∃ target, operand = .var target ∧ e = .step op target false ∧ ts = rest := by
  rw [stepOrStop, if_pos (isStep_iff.mpr h)]
  simp only [stepOf_leaves, done_one_leaves, eq_comm]

theorem read_cast (h : t.kind = .typeCast) :
    read last .primary (t :: ts) =
      ((read last .unary ts).behind 1).andThen fun operand _ => .done (.cast t operand) 0 := by
  rw [read, h]

theorem leaves_cast (h : t.kind = .typeCast) :
    (read last .primary (t :: ts)).Leaves (t :: ts) e rest ↔
      ∃ operand, (read last .unary ts).Leaves ts operand rest ∧ e = .cast t operand := by
  rw [read_cast h]
  exact behind_build_leaves (Expr.cast t)

theorem read_group (h : t.kind = .leftParen) :
    read last .primary (t :: ts) =
      ((read last .assignment ts).behind 1).andThen fun inner n =>
        (expect last .rightParen .groupEnd (ts.drop (n - 1))).andThen fun _ _ =>
          .done (.grouping inner) 0 := by
  conv => lhs; rw [read, h]

theorem leaves_group (h : t.kind = .leftParen) :
    (read last .primary (t :: ts)).Leaves (t :: ts) e rest ↔
      ∃ inner r, (read last .assignment ts).Leaves ts inner (r :: rest) ∧
        r.kind = .rightParen ∧ e = .grouping inner := by
  rw [read_group h, behind_andThen_leaves fun inner ts =>
    (expect last .rightParen .groupEnd ts).andThen fun _ _ => .done (Expr.grouping inner) 0]
  simp only [closing_leaves]
  constructor
  · rintro ⟨inner, _, hinner, r, rfl, hr, rfl⟩
    exact ⟨inner, r, hinner, hr, rfl⟩
  · rintro ⟨inner, r, hinner, hr, rfl⟩
    exact ⟨inner, _, hinner, r, rfl, hr, rfl⟩

theorem read_literal (h : t.kind ∈ [.number, .string, .character]) :
    read last .primary (t :: ts) = literalOf t := by
  simp only [List.mem_cons, List.not_mem_nil, or_false] at h
  rw [read]
  rcases h with h | h | h <;> simp only [h]

/-! ### Reading by rules -/

theorem reads_of_leaves {goal : Goal} : ∀ {e : Expr} {rest : List Token},
    (read last goal ts).Leaves ts e rest → Reads goal ts e rest := by
  induction goal, ts using read.induct with
  -- Assignments.
  | case1 ts ihLeft ihValue =>
      intro e rest h
      obtain ⟨left, mid, hleft, hmid⟩ := leaves_assignment.mp h
      rcases stops_or_mem assignments mid with hstops | ⟨op, behind, rfl, hop⟩
      · rw [assignOrStop_of_stops hstops, done_leaves] at hmid
        obtain ⟨rfl, rfl⟩ := hmid
        exact .unassigned (ihLeft hleft) hstops
      · obtain ⟨name, value, rfl, hvalue, rfl⟩ := (assignOrStop_leaves hop).mp hmid
        obtain ⟨n, hn⟩ := hleft.eq_drop
        exact .assign (ihLeft hleft) hop (ihValue n op behind hn.symm hvalue)
  -- Levels of operators.
  | case2 ts ih =>
      intro e rest h
      rw [read] at h
      exact .tightest (ih h)
  | case3 ts l tighter ihLeft ihMore =>
      intro e rest h
      obtain ⟨left, mid, hleft, hmore⟩ := leaves_level.mp h
      obtain ⟨n, rfl⟩ := hleft.eq_drop
      exact .level (ihLeft hleft) (ihMore left n hmore)
  | case4 l tighter left op ts hop ihRight ihMore =>
      intro e rest h
      obtain ⟨right, mid, hright, hmore⟩ := (leaves_more hop).mp h
      obtain ⟨n, rfl⟩ := hright.eq_drop
      exact .more hop (ihRight hright) (ihMore right (n + 1) hmore)
  | case5 l tighter left op ts hop =>
      intro e rest h
      have hstops : Stops l (op :: ts) := stops_cons.mpr hop
      rw [read_more_of_stops hstops, done_leaves] at h
      obtain ⟨rfl, rfl⟩ := h
      exact .noMore hstops
  | case6 l tighter left =>
      intro e rest h
      rw [read_more_of_stops (stops_nil l), done_leaves] at h
      obtain ⟨rfl, rfl⟩ := h
      exact .noMore (stops_nil l)
  -- Unary and suffixed expressions.
  | case7 op ts hop ih =>
      intro e rest h
      rw [isStep_iff] at hop
      obtain ⟨target, htarget, rfl⟩ := (leaves_stepBefore hop).mp h
      exact .stepBefore hop (ih htarget)
  | case8 op ts _ hop ih =>
      intro e rest h
      rw [isUnary_iff] at hop
      obtain ⟨operand, hoperand, rfl⟩ := (leaves_unary hop).mp h
      exact .unary hop (ih hoperand)
  | case9 op ts hstep hop ih =>
      intro e rest h
      rw [isStep_iff] at hstep
      rw [isUnary_iff] at hop
      have hstops : Stops (steps ++ unaries) (op :: ts) :=
        stops_append.mpr ⟨stops_cons.mpr hstep, stops_cons.mpr hop⟩
      rw [read_unary_of_stops hstops] at h
      exact .suffixed hstops (ih h)
  | case10 ih =>
      intro e rest h
      rw [read_unary_of_stops (stops_nil _)] at h
      exact .suffixed (stops_nil _) (ih h)
  | case11 ts ih =>
      intro e rest h
      obtain ⟨operand, mid, hoperand, hmid⟩ := leaves_suffixed.mp h
      rcases stops_or_mem steps mid with hstops | ⟨op, behind, rfl, hop⟩
      · rw [stepOrStop_of_stops hstops, done_leaves] at hmid
        obtain ⟨rfl, rfl⟩ := hmid
        exact .primary (ih hoperand) hstops
      · obtain ⟨target, rfl, rfl, rfl⟩ := (stepOrStop_leaves hop).mp hmid
        exact .stepBehind (ih hoperand) hop
  -- Primary expressions.
  | case12 t ts hk =>
      intro e rest h
      rw [read, hk] at h
      obtain ⟨rfl, rfl⟩ := done_one_leaves.mp h
      exact .falseWord hk
  | case13 t ts hk =>
      intro e rest h
      rw [read, hk] at h
      obtain ⟨rfl, rfl⟩ := done_one_leaves.mp h
      exact .trueWord hk
  | case14 t ts hk =>
      intro e rest h
      rw [read, hk] at h
      obtain ⟨rfl, rfl⟩ := done_one_leaves.mp h
      exact .nullWord hk
  | case15 t ts hk | case16 t ts hk | case17 t ts hk =>
      intro e rest h
      have hmem : t.kind ∈ [.number, .string, .character] := by rw [hk]; decide
      rw [read_literal hmem, literalOf_leaves] at h
      obtain ⟨v, hv, rfl, rfl⟩ := h
      exact .literal hmem hv
  | case18 t ts hk =>
      intro e rest h
      rw [read, hk] at h
      obtain ⟨rfl, rfl⟩ := done_one_leaves.mp h
      exact .var hk
  | case19 t ts hk ih =>
      intro e rest h
      obtain ⟨operand, hoperand, rfl⟩ := (leaves_cast hk).mp h
      exact .cast hk (ih hoperand)
  | case20 t ts hk ih =>
      intro e rest h
      obtain ⟨inner, r, hinner, hr, rfl⟩ := (leaves_group hk).mp h
      exact .group hk (ih hinner) hr
  | case21 t ts h₁ h₂ h₃ h₄ h₅ h₆ h₇ h₈ h₉ =>
      intro e rest h
      rw [read] at h
      split at h <;> first | contradiction | exact absurd h not_fail_leaves
  | case22 =>
      intro e rest h
      rw [read] at h
      exact absurd h not_fail_leaves

theorem leaves_of_reads {goal : Goal} (h : Reads goal ts e rest) :
    (read last goal ts).Leaves ts e rest := by
  induction h with
  | unassigned _ hstops ih =>
      refine leaves_assignment.mpr ⟨_, _, ih, ?_⟩
      rw [assignOrStop_of_stops hstops, done_leaves]
      exact ⟨rfl, rfl⟩
  | assign _ hop _ ihLeft ihValue =>
      exact leaves_assignment.mpr
        ⟨_, _, ihLeft, (assignOrStop_leaves hop).mpr ⟨_, _, rfl, ihValue, rfl⟩⟩
  | tightest _ ih =>
      rw [read]
      exact ih
  | level _ _ ihLeft ihMore => exact leaves_level.mpr ⟨_, _, ihLeft, ihMore⟩
  | noMore hstops =>
      rw [read_more_of_stops hstops, done_leaves]
      exact ⟨rfl, rfl⟩
  | more hop _ _ ihRight ihMore => exact (leaves_more hop).mpr ⟨_, _, ihRight, ihMore⟩
  | stepBefore hop _ ih => exact (leaves_stepBefore hop).mpr ⟨_, ih, rfl⟩
  | unary hop _ ih => exact (leaves_unary hop).mpr ⟨_, ih, rfl⟩
  | suffixed hstops _ ih =>
      rw [read_unary_of_stops hstops]
      exact ih
  | stepBehind _ hop ih =>
      exact leaves_suffixed.mpr ⟨_, _, ih, (stepOrStop_leaves hop).mpr ⟨_, rfl, rfl, rfl⟩⟩
  | primary _ hstops ih =>
      refine leaves_suffixed.mpr ⟨_, _, ih, ?_⟩
      rw [stepOrStop_of_stops hstops, done_leaves]
      exact ⟨rfl, rfl⟩
  | falseWord hk | trueWord hk | nullWord hk | var hk =>
      rw [read, hk]
      exact done_one_leaves.mpr ⟨rfl, rfl⟩
  | literal hk hv =>
      rw [read_literal hk, literalOf_leaves]
      exact ⟨_, hv, rfl, rfl⟩
  | cast hk _ ih => exact (leaves_cast hk).mpr ⟨_, ih, rfl⟩
  | group hl _ hr ih => exact (leaves_group hl).mpr ⟨_, _, ih, hr, rfl⟩

/-- The reader reads without reports exactly what the rules allow. -/
theorem leaves_iff_reads {goal : Goal} :
    (read last goal ts).Leaves ts e rest ↔ Reads goal ts e rest :=
  ⟨reads_of_leaves, leaves_of_reads⟩

end Goal

end SlotScript
