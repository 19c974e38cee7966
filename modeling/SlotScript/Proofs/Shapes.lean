import SlotScript.Proofs.Acceptance

/-! # Shapes of trees

The tree of an expression keeps tokens for its operators, its names and the types of
its casts.  `Expr.Shaped` says which kinds they have, and that every cast comes from a
token of the source; `Stmt.Shaped` says the same of statements, and that none of them
is conditional.

Every statement that is read has this shape, whether or not errors were reported
around it (`parse_shaped`). -/

namespace SlotScript

open Reading Token.Kind

namespace Token.Kind

/-- The operators between two operands that are both evaluated. -/
def binaries : List Kind :=
  [plus, minus, star, slash, percent, power, bitAnd, bitOr, bitXor, leftShift, rightShift,
    equalEqual, bangEqual, less, lessEqual, greater, greaterEqual]

/-- The operators whose right operand may be skipped. -/
def logicals : List Kind := [and, or]

theorem mem_binaries_of_level {k : Kind} (h : k ∈ levels.flatten) (hk : ¬(k = or ∨ k = and)) :
    k ∈ binaries := by
  revert hk
  revert k
  decide

theorem mem_binaries_of_compoundBase {k base : Kind} (h : k.compoundBase? = some base) :
    base ∈ binaries := by
  unfold compoundBase? at h
  split at h <;> simp_all [binaries]

end Token.Kind

/-- The operators, names and casts of the tree are tokens of the right kinds, and the
casts are tokens of the source. -/
def Expr.Shaped (source : List Token) : Expr → Prop
  | .literal _ => True
  | .var name => name.kind = .identifier
  | .unary op operand => op.kind ∈ unaries ∧ operand.Shaped source
  | .binary left op right => op.kind ∈ binaries ∧ left.Shaped source ∧ right.Shaped source
  | .logical left op right => op.kind ∈ logicals ∧ left.Shaped source ∧ right.Shaped source
  | .assign target value => target.kind = .identifier ∧ value.Shaped source
  | .grouping inner => inner.Shaped source
  | .cast target operand => (target.kind = .typeCast ∧ target ∈ source) ∧ operand.Shaped source
  | .step op target _ => op.kind ∈ steps ∧ target.kind = .identifier

mutual

/-- The expressions of the statement are well shaped, its variable is named by an
identifier, and it is not conditional. -/
def Stmt.Shaped (source : List Token) : Stmt → Prop
  | .expression e => e.Shaped source
  | .print e => e.Shaped source
  | .block body => Stmt.AllShaped source body
  | .declare _ name initial => name.kind = .identifier ∧ ∀ e ∈ initial, e.Shaped source
  | .conditional _ _ _ _ => False

/-- All the statements are well shaped. -/
def Stmt.AllShaped (source : List Token) : List Stmt → Prop
  | [] => True
  | s :: rest => s.Shaped source ∧ Stmt.AllShaped source rest

end

theorem Stmt.allShaped_append {source : List Token} {before behind : List Stmt} :
    Stmt.AllShaped source (before ++ behind) ↔
      Stmt.AllShaped source before ∧ Stmt.AllShaped source behind := by
  induction before with
  | nil => simp [Stmt.AllShaped]
  | cons s rest ih => simp only [List.cons_append, Stmt.AllShaped, ih, and_assoc]

/-! ### What a reading finds -/

namespace Reading

variable {α β : Type} {P : α → Prop} {Q : β → Prop} {r : Reading α}

/-- What the reading finds, if it finds anything, satisfies `P`. -/
def Finds (r : Reading α) (P : α → Prop) : Prop := ∀ a, r.outcome = .ok a → P a

theorem finds_ok {a : α} (h : P a) (n : Nat) (reports : List SyntaxError) :
    Finds ⟨.ok a, n, reports⟩ P := by
  intro b hb
  have heq : a = b := Except.ok.inj hb
  rw [← heq]
  exact h

theorem finds_done {a : α} {n : Nat} (h : P a) : (done a n).Finds P := finds_ok h n []

theorem finds_fail (e : SyntaxError) (n : Nat) : (fail e n).Finds P := by
  intro a ha
  cases ha

theorem Finds.behind (h : r.Finds P) (n : Nat) : (r.behind n).Finds P := h

theorem Finds.andThen {next : α → Nat → Reading β} (h : r.Finds P)
    (hnext : ∀ a n, P a → (next a n).Finds Q) : (r.andThen next).Finds Q := by
  obtain ⟨outcome, used, reports⟩ := r
  cases outcome with
  | error e => exact finds_fail e used
  | ok a => exact hnext a used (h a rfl)

theorem expect_finds (last : Nat) (kind : Token.Kind) (what : Expectation) (ts : List Token) :
    (expect last kind what ts).Finds fun t => t.kind = kind := by
  unfold expect
  split
  · split
    · rename_i ht
      exact finds_done ht
    · exact finds_fail _ _
  · exact finds_fail _ _

end Reading

/-! ### Expressions -/

namespace Goal

variable {last : Nat} {source ts : List Token}

/-- The operand that a goal goes on with is well shaped. -/
def Shaped (source : List Token) : Goal → Prop
  | .more _ _ left => left.Shaped source
  | _ => True

theorem shaped_join {left right : Expr} {op : Token} (hop : op.kind ∈ levels.flatten)
    (hl : left.Shaped source) (hr : right.Shaped source) : (left.join op right).Shaped source := by
  unfold Expr.join
  split
  · rename_i hlogical
    refine ⟨?_, hl, hr⟩
    rcases hlogical with hk | hk <;> simp [hk, logicals]
  · rename_i hlogical
    exact ⟨mem_binaries_of_level hop hlogical, hl, hr⟩

theorem assignTo_finds {left value : Expr} {op : Token} (hl : left.Shaped source)
    (hv : value.Shaped source) : (assignTo left op value).Finds (Expr.Shaped source) := by
  unfold assignTo
  split
  · rename_i name
    refine finds_done ⟨hl, ?_⟩
    unfold Expr.assigned
    split
    · rename_i base hbase
      exact ⟨mem_binaries_of_compoundBase hbase, hl, hv⟩
    · exact hv
  · exact finds_ok hl 0 _

theorem stepOf_finds {operand : Expr} {op : Token} (hop : op.kind ∈ steps)
    (h : operand.Shaped source) (isPrefix : Bool) (n : Nat) :
    (stepOf op operand isPrefix n).Finds (Expr.Shaped source) := by
  unfold stepOf
  split
  · exact finds_done ⟨hop, h⟩
  · exact finds_fail _ _

theorem literalOf_finds (t : Token) : (literalOf t).Finds (Expr.Shaped source) := by
  unfold literalOf
  split
  · exact finds_done trivial
  · exact finds_fail _ _

theorem stepOrStop_finds {operand : Expr} (h : operand.Shaped source) (ts : List Token) :
    (stepOrStop operand ts).Finds (Expr.Shaped source) := by
  unfold stepOrStop
  split
  · split
    · rename_i hop
      exact stepOf_finds (isStep_iff.mp hop) h false 1
    · exact finds_done h
  · exact finds_done h

theorem assignOrStop_finds {left : Expr} (h : left.Shaped source)
    (hvalue : ∀ op rest, ts = op :: rest →
      (read last .assignment rest).Finds (Expr.Shaped source)) :
    (assignOrStop last left ts).Finds (Expr.Shaped source) := by
  unfold assignOrStop
  split
  · rename_i op rest
    split
    · exact ((hvalue op rest rfl).behind 1).andThen fun value _ hv => assignTo_finds h hv
    · exact finds_done h
  · exact finds_done h

/-- Every tree that the reader finds is well shaped. -/
theorem read_finds {goal : Goal} (hops : goal.operators ⊆ levels.flatten)
    (hgoal : goal.Shaped source) (hts : ts ⊆ source) :
    (read last goal ts).Finds (Expr.Shaped source) := by
  induction goal, ts using read.induct with
  | case1 ts ihLeft ihValue =>
      rw [read_assignment]
      refine (ihLeft (List.Subset.refl _) trivial hts).andThen fun left n hl => ?_
      refine assignOrStop_finds hl fun op rest hrest => ?_
      have hsub : op :: rest ⊆ source := by
        rw [← hrest]
        exact List.Subset.trans (List.drop_subset n ts) hts
      exact ihValue n op rest hrest (List.nil_subset _) trivial (List.subset_of_cons_subset hsub)
  | case2 ts ih =>
      rw [read_tightest]
      exact ih (List.nil_subset _) trivial hts
  | case3 ts l tighter ihLeft ihMore =>
      rw [read_level]
      have htighter := (List.append_subset.mp hops).2
      refine (ihLeft htighter trivial hts).andThen fun left n hl => ?_
      exact ihMore left n hops hl (List.Subset.trans (List.drop_subset n ts) hts)
  | case4 l tighter left op ts hop ihRight ihMore =>
      rw [read_more hop]
      obtain ⟨hlevel, htighter⟩ := List.append_subset.mp hops
      have hrest := List.subset_of_cons_subset hts
      refine ((ihRight htighter trivial hrest).behind 1).andThen fun right n hr => ?_
      exact ihMore right n hops (shaped_join (hlevel hop) hgoal hr)
        (List.Subset.trans (List.drop_subset _ ts) hrest)
  | case5 l tighter left op ts hop =>
      rw [read_more_of_stops (stops_cons.mpr hop)]
      exact finds_done hgoal
  | case6 l tighter left =>
      rw [read_more_of_stops (stops_nil l)]
      exact finds_done hgoal
  | case7 op ts hop ih =>
      rw [isStep_iff] at hop
      rw [read_stepBefore hop]
      have hoperand := ih (List.nil_subset _) trivial (List.subset_of_cons_subset hts)
      exact (hoperand.behind 1).andThen fun operand _ ho => stepOf_finds hop ho true 0
  | case8 op ts hstep hop ih =>
      rw [isUnary_iff] at hop
      rw [read_unary hop]
      have hoperand := ih (List.nil_subset _) trivial (List.subset_of_cons_subset hts)
      exact (hoperand.behind 1).andThen fun operand _ ho => finds_done ⟨hop, ho⟩
  | case9 op ts hstep hop ih =>
      have hfront : Stops (steps ++ unaries) (op :: ts) :=
        stops_append.mpr ⟨stops_cons.mpr (mt isStep_iff.mpr hstep),
          stops_cons.mpr (mt isUnary_iff.mpr hop)⟩
      rw [read_unary_of_stops hfront]
      exact ih (List.nil_subset _) trivial hts
  | case10 ih =>
      rw [read_unary_of_stops (stops_nil _)]
      exact ih (List.nil_subset _) trivial hts
  | case11 ts ih =>
      rw [read_suffixed]
      have hprimary := ih (List.nil_subset _) trivial hts
      exact hprimary.andThen fun operand n ho => stepOrStop_finds ho _
  | case19 t ts ht ih =>
      rw [read_cast ht]
      have hoperand := ih (List.nil_subset _) trivial (List.subset_of_cons_subset hts)
      refine (hoperand.behind 1).andThen fun operand _ ho => finds_done ⟨⟨ht, ?_⟩, ho⟩
      exact hts (List.mem_cons_self ..)
  | case20 t ts ht ih =>
      rw [read_group ht]
      have hinner := ih (List.nil_subset _) trivial (List.subset_of_cons_subset hts)
      refine (hinner.behind 1).andThen fun inner n hi => ?_
      exact (expect_finds last _ _ _).andThen fun _ _ _ => finds_done hi
  | case15 t ts ht | case16 t ts ht | case17 t ts ht =>
      rw [read_literal (by simp [ht])]
      exact literalOf_finds t
  | case12 t ts ht | case13 t ts ht | case14 t ts ht | case18 t ts ht =>
      rw [read, ht]
      exact finds_done (by trivial)
  | case21 t ts =>
      rw [read]
      simp only [*]
      exact finds_fail _ _
  | case22 =>
      rw [read]
      exact finds_fail _ _

end Goal

/-! ### Statements -/

section statements

variable {last : Nat} {source ts : List Token}

theorem Expr.read_finds (hts : ts ⊆ source) : (Expr.read last ts).Finds (Expr.Shaped source) :=
  Goal.read_finds (List.nil_subset _) trivial hts

namespace Stmt

theorem readClosed_finds (hts : ts ⊆ source) {what : Expectation} {build : Expr → Stmt}
    (hbuild : ∀ e : Expr, e.Shaped source → (build e).Shaped source) :
    (readClosed last what build ts).Finds (Stmt.Shaped source) := by
  unfold readClosed
  refine (Expr.read_finds hts).andThen fun e n he => ?_
  exact (expect_finds last _ _ _).andThen fun _ _ _ => finds_done (hbuild e he)

theorem readDeclare_finds (hts : ts ⊆ source) (type : Ty) :
    (readDeclare last type ts).Finds (Stmt.Shaped source) := by
  unfold readDeclare
  refine (expect_finds last _ _ ts).andThen fun name n hname => ?_
  split
  · rename_i t rest hrest
    have hsub : t :: rest ⊆ source := by
      rw [← hrest]
      exact List.Subset.trans (List.drop_subset n ts) hts
    split
    · have hinitial : (Expr.read last rest).Finds (Expr.Shaped source) :=
        Expr.read_finds (List.subset_of_cons_subset hsub)
      refine (hinitial.behind 1).andThen fun e m he => ?_
      refine (expect_finds last _ _ _).andThen fun _ _ _ => finds_done ⟨hname, ?_⟩
      intro e' he'
      rw [← Option.some.inj he']
      exact he
    · refine (expect_finds last _ _ _).andThen fun _ _ _ => finds_done ⟨hname, ?_⟩
      intro e he
      cases he
  · exact finds_fail _ _

theorem readSimple_finds {t : Token} (hts : t :: ts ⊆ source) :
    (readSimple last t ts).Finds (Stmt.Shaped source) := by
  have hrest := List.subset_of_cons_subset hts
  unfold readSimple
  split
  · rename_i type _
    exact (readDeclare_finds hrest type).behind 1
  · have hprint : ∀ e : Expr, e.Shaped source → (Stmt.print e).Shaped source := fun e he => he
    exact (readClosed_finds hrest hprint).behind 1
  · have hexpr : ∀ e : Expr, e.Shaped source → (Stmt.expression e).Shaped source := fun e he => he
    exact readClosed_finds hts hexpr

end Stmt

theorem Reading.recover_shaped {r : Reading Stmt} (h : r.Finds (Stmt.Shaped source)) :
    Stmt.AllShaped source (r.recover ts).statements := by
  unfold Reading.recover
  split
  · rename_i s hs
    exact ⟨h s hs, trivial⟩
  · trivial

namespace Body

theorem close_finds {inner : Body} (h : Stmt.AllShaped source inner.statements) :
    (close last inner ts).Finds (Stmt.Shaped source) := by
  intro s hs
  unfold close at hs
  cases hbrace : (expect last .rightBrace .blockEnd (ts.drop inner.used)).outcome with
  | error e => simp [hbrace, Except.map] at hs
  | ok t =>
      simp only [hbrace, Except.map, Except.ok.injEq] at hs
      rw [← hs]
      exact h

/-- Every statement of a body is well shaped. -/
theorem read_shaped (last : Nat) (nested : Bool) (hts : ts ⊆ source) :
    Stmt.AllShaped source (read last nested ts).statements := by
  -- The inner body and the rest of the body are read off shorter lists.
  induction hlength : ts.length using Nat.strongRecOn generalizing ts nested with
  | ind n ih =>
      cases ts with
      | nil =>
          rw [read]
          trivial
      | cons t ts =>
          rw [read_cons]
          split
          · trivial
          · have hrest := List.subset_of_cons_subset hts
            rw [List.length_cons] at hlength
            refine Stmt.allShaped_append.mpr ⟨?_, ?_⟩
            · unfold first
              split
              · exact recover_shaped (close_finds (ih ts.length (by omega) true hrest rfl))
              · exact recover_shaped (Stmt.readSimple_finds hts)
            · refine ih _ ?_ nested (List.Subset.trans (List.drop_subset _ ts) hrest) rfl
              rw [List.length_drop]
              omega

end Body

end statements

/-- Every statement of a program that is read is well shaped. -/
theorem parse_shaped (tokens : List Token) : Stmt.AllShaped tokens (parse tokens).statements := by
  unfold parse
  exact Body.read_shaped _ false (List.takeWhile_subset _)

end SlotScript
