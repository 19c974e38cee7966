import SlotScript.Proofs.Acceptance

/-! # Reading piece by piece

An expression is read without a look behind the semicolon that closes it
(`Goal.read_settled`): whatever stands there, the reading is the same and takes no
semicolon.  So is a statement that is no block, and if it cannot be read, what is
skipped ends with its semicolon (`Stmt.readSimple_closes`, `skip_to_semicolon`).

A piece of a program is self-contained if it can be read without reports, or if it is
one broken statement.  Pieces of this kind are read one by one: a program made of them
and of a rest gives what each of them gives alone and what the rest gives alone
(`parse_selfContained`). -/

namespace SlotScript

open Reading Token.Kind

/-! ### Readings in front of a semicolon -/

namespace Reading

variable {α β : Type} {before : List Token} {r r' : Reading α}

/-- Two readings of the tokens `before`, with different tokens behind them, agree and
take none but these. -/
def Settled (before : List Token) (r r' : Reading α) : Prop :=
  r = r' ∧ r.used ≤ before.length

theorem settled_done (before : List Token) (a : α) : Settled before (done a 0) (done a 0) :=
  ⟨rfl, Nat.zero_le _⟩

theorem settled_fail (before : List Token) (e : SyntaxError) :
    Settled before (fail e 0 : Reading α) (fail e 0) :=
  ⟨rfl, Nat.zero_le _⟩

/-- A reading that takes one token is settled where there is one. -/
theorem settled_one (t : Token) (before : List Token) (r : Reading α) (h : r.used ≤ 1) :
    Settled (t :: before) r r := by
  refine ⟨rfl, ?_⟩
  rw [List.length_cons]
  omega

theorem Settled.andThen {next next' : α → Nat → Reading β} (h : Settled before r r')
    (hnext : ∀ a n, n ≤ before.length → Settled (before.drop n) (next a n) (next' a n)) :
    Settled before (r.andThen next) (r'.andThen next') := by
  obtain ⟨rfl, hused⟩ := h
  obtain ⟨outcome, n, reports⟩ := r
  cases outcome with
  | error e => exact ⟨rfl, hused⟩
  | ok a =>
      obtain ⟨heq, hle⟩ := hnext a n hused
      rw [List.length_drop] at hle
      refine ⟨?_, ?_⟩
      · simp only [Reading.andThen, heq]
      · simp only [Reading.andThen]
        have hn : n ≤ before.length := hused
        omega

theorem Settled.behind (t : Token) (h : Settled before r r') :
    Settled (t :: before) (r.behind 1) (r'.behind 1) := by
  obtain ⟨rfl, hused⟩ := h
  refine ⟨rfl, ?_⟩
  simp only [Reading.behind, List.length_cons]
  omega

/-- The same behind a token that was taken before. -/
theorem Settled.behindThen {next next' : α → Nat → Reading β} (t : Token)
    (h : Settled before r r')
    (hnext : ∀ a n, n ≤ before.length →
      Settled (before.drop n) (next a (1 + n)) (next' a (1 + n))) :
    Settled (t :: before) ((r.behind 1).andThen next) ((r'.behind 1).andThen next') := by
  rw [behind_andThen, behind_andThen]
  exact (h.andThen hnext).behind t

end Reading

/-! ### Expressions -/

namespace Goal

variable {last last' : Nat} {semicolon : Token} {rest rest' : List Token}

theorem assignOrStop_settled (hk : semicolon.kind = .semicolon) {before : List Token}
    {left : Expr}
    (hvalue : ∀ op more, before = op :: more →
      Settled more (read last .assignment (more ++ semicolon :: rest))
        (read last' .assignment (more ++ semicolon :: rest'))) :
    Settled before (assignOrStop last left (before ++ semicolon :: rest))
      (assignOrStop last' left (before ++ semicolon :: rest')) := by
  cases before with
  | nil =>
      have hstops : ∀ rest, Stops assignments (semicolon :: rest) := fun rest =>
        stops_cons.mpr (by rw [hk]; decide)
      rw [List.nil_append, List.nil_append, assignOrStop_of_stops (hstops rest),
        assignOrStop_of_stops (hstops rest')]
      exact settled_done [] left
  | cons op more =>
      simp only [List.cons_append, assignOrStop]
      split
      · refine (hvalue op more rfl).behindThen op fun value n _ => ?_
        unfold assignTo
        split
        · exact settled_done _ _
        · exact ⟨rfl, Nat.zero_le _⟩
      · exact settled_done _ left

theorem stepOrStop_settled (hk : semicolon.kind = .semicolon) (before : List Token)
    (operand : Expr) :
    Settled before (stepOrStop operand (before ++ semicolon :: rest))
      (stepOrStop operand (before ++ semicolon :: rest')) := by
  cases before with
  | nil =>
      have hstops : ∀ rest, Stops steps (semicolon :: rest) := fun rest =>
        stops_cons.mpr (by rw [hk]; decide)
      rw [List.nil_append, List.nil_append, stepOrStop_of_stops (hstops rest),
        stepOrStop_of_stops (hstops rest')]
      exact settled_done [] operand
  | cons op more =>
      simp only [List.cons_append, stepOrStop]
      split
      · refine settled_one op more _ ?_
        unfold stepOf
        split
        · exact Nat.le_refl 1
        · exact Nat.le_refl 1
      · exact settled_done _ operand

theorem expect_settled (hk : semicolon.kind = .semicolon) (before : List Token)
    {kind : Token.Kind} (hkind : kind ≠ .semicolon) (what : Expectation) :
    Settled before (expect last kind what (before ++ semicolon :: rest))
      (expect last' kind what (before ++ semicolon :: rest')) := by
  cases before with
  | nil =>
      have hne : semicolon.kind ≠ kind := by
        rw [hk]
        exact hkind.symm
      simp only [List.nil_append, expect, if_neg hne]
      exact settled_fail [] _
  | cons t more =>
      simp only [List.cons_append, expect]
      split
      · exact settled_one t more _ (Nat.le_refl 1)
      · exact settled_fail _ _

/-- A token that is no semicolon stands in front of it. -/
theorem cons_of_ne_semicolon {t : Token} {ts before : List Token}
    (hsemi : semicolon.kind = .semicolon) (ht : t.kind ≠ .semicolon)
    (hts : t :: ts = before ++ semicolon :: rest) :
    ∃ more, before = t :: more ∧ ts = more ++ semicolon :: rest := by
  cases before with
  | nil =>
      obtain ⟨rfl, -⟩ := List.cons.inj hts
      exact absurd hsemi ht
  | cons u more =>
      rw [List.cons_append] at hts
      obtain ⟨rfl, hrest⟩ := List.cons.inj hts
      exact ⟨more, rfl, hrest⟩

theorem read_primary_semicolon (hsemi : semicolon.kind = .semicolon) :
    read last .primary (semicolon :: rest) = .fail (.atToken semicolon .expectedExpression) 0 := by
  rw [read, hsemi]

/-- What starts with neither a cast nor a parenthesis is one token long at most. -/
theorem read_primary_alone {t : Token} (hcast : t.kind ≠ .typeCast)
    (hparen : t.kind ≠ .leftParen) :
    ∃ r : Reading Expr, r.used ≤ 1 ∧ ∀ last ts, read last .primary (t :: ts) = r := by
  have hone : ∀ e : Expr, (done e 1).used ≤ 1 := fun _ => Nat.le_refl 1
  have hliteral : (literalOf t).used ≤ 1 := by
    unfold literalOf
    split
    · exact Nat.le_refl 1
    · exact Nat.le_refl 1
  cases hkind : t.kind with
  | falseWord => exact ⟨_, hone (.literal (.bool false)), fun last ts => by rw [read, hkind]⟩
  | trueWord => exact ⟨_, hone (.literal (.bool true)), fun last ts => by rw [read, hkind]⟩
  | nullWord => exact ⟨_, hone (.literal .null), fun last ts => by rw [read, hkind]⟩
  | identifier => exact ⟨_, hone (.var t), fun last ts => by rw [read, hkind]⟩
  | number | string | character => exact ⟨_, hliteral, fun last ts => by rw [read, hkind]⟩
  | typeCast | leftParen => contradiction
  | _ =>
      refine ⟨.fail (.atToken t .expectedExpression) 0, Nat.zero_le 1, fun last ts => ?_⟩
      rw [read, hkind]

theorem read_primary_settled {t : Token} {ts ts' : List Token} (hcast : t.kind ≠ .typeCast)
    (hparen : t.kind ≠ .leftParen) (before : List Token) :
    Settled (t :: before) (read last .primary (t :: ts)) (read last' .primary (t :: ts')) := by
  obtain ⟨r, hused, hread⟩ := read_primary_alone hcast hparen
  rw [hread, hread]
  exact settled_one t before r hused

/-- Reading an expression does not depend on what stands behind a semicolon, nor on where
the tokens end, and takes no tokens from the semicolon on. -/
theorem read_settled (hsemi : semicolon.kind = .semicolon) {goal : Goal} {ts : List Token} :
    ∀ {before : List Token}, goal.operators ⊆ levels.flatten → ts = before ++ semicolon :: rest →
      Settled before (read last goal ts) (read last' goal (before ++ semicolon :: rest')) := by
  have hdrop : ∀ {before : List Token} {n : Nat} (rest : List Token), n ≤ before.length →
      (before ++ semicolon :: rest).drop n = before.drop n ++ semicolon :: rest :=
    fun rest hn => List.drop_append_of_le_length hn
  have hstops : ∀ {ks : List Token.Kind} (rest : List Token), Token.Kind.semicolon ∉ ks →
      Stops ks (semicolon :: rest) := fun rest hks => stops_cons.mpr (by rw [hsemi]; exact hks)
  induction goal, ts using read.induct with
  -- Assignments.
  | case1 ts ihLeft ihValue =>
      rintro before - rfl
      rw [read_assignment, read_assignment]
      refine (ihLeft (List.Subset.refl _) rfl).andThen fun left n hn => ?_
      rw [hdrop rest hn, hdrop rest' hn]
      refine assignOrStop_settled hsemi fun op more hmore => ?_
      have hfront : (before ++ semicolon :: rest).drop n = op :: (more ++ semicolon :: rest) := by
        rw [hdrop rest hn, hmore, List.cons_append]
      exact ihValue n op _ hfront (List.nil_subset _) rfl
  -- Levels of operators.
  | case2 ts ih =>
      rintro before - rfl
      rw [read_tightest, read_tightest]
      exact ih (List.nil_subset _) rfl
  | case3 ts l tighter ihLeft ihMore =>
      rintro before hops rfl
      rw [read_level, read_level]
      have hlevels : l ++ tighter.flatten ⊆ levels.flatten := hops
      refine (ihLeft (List.append_subset.mp hlevels).2 rfl).andThen fun left n hn => ?_
      rw [hdrop rest' hn]
      exact ihMore left n hlevels (hdrop rest hn)
  | case4 l tighter left op ts hop ihRight ihMore =>
      rintro before hops hts
      have hlevels : l ++ tighter.flatten ⊆ levels.flatten := hops
      obtain ⟨hl, htighter⟩ := List.append_subset.mp hlevels
      have hne : op.kind ≠ .semicolon := ne_of_mem_of_not_mem (hl hop) (by decide)
      obtain ⟨more, rfl, rfl⟩ := cons_of_ne_semicolon hsemi hne hts
      rw [List.cons_append, read_more hop, read_more hop]
      refine (ihRight htighter rfl).behindThen op fun right n hn => ?_
      have hmore : more.drop (1 + n - 1) = more.drop n := by rw [Nat.add_sub_cancel_left]
      have hn' : 1 + n - 1 ≤ more.length := by omega
      rw [hdrop rest' hn', ← hmore]
      exact ihMore right (1 + n) hlevels (hdrop rest hn')
  | case5 l tighter left op ts hop =>
      rintro before hops hts
      cases before with
      | nil =>
          obtain ⟨rfl, rfl⟩ := List.cons.inj hts
          rw [List.nil_append, read_more_of_stops (stops_cons.mpr hop),
            read_more_of_stops (stops_cons.mpr hop)]
          exact settled_done _ left
      | cons op' more =>
          obtain ⟨rfl, rfl⟩ := List.cons.inj hts
          rw [List.cons_append, read_more_of_stops (stops_cons.mpr hop),
            read_more_of_stops (stops_cons.mpr hop)]
          exact settled_done _ left
  | case6 l tighter left =>
      rintro before - hts
      exact absurd hts.symm (List.append_ne_nil_of_right_ne_nil _ (List.cons_ne_nil _ _))
  -- Unary and suffixed expressions.
  | case7 op ts hop ih =>
      rintro before - hts
      rw [isStep_iff] at hop
      have hne : op.kind ≠ .semicolon := ne_of_mem_of_not_mem hop (by decide)
      obtain ⟨more, rfl, rfl⟩ := cons_of_ne_semicolon hsemi hne hts
      rw [List.cons_append, read_stepBefore hop, read_stepBefore hop]
      refine (ih (List.nil_subset _) rfl).behindThen op fun operand n _ => ?_
      unfold stepOf
      split
      · exact settled_done _ _
      · exact settled_fail _ _
  | case8 op ts hstep hop ih =>
      rintro before - hts
      rw [isUnary_iff] at hop
      have hne : op.kind ≠ .semicolon := ne_of_mem_of_not_mem hop (by decide)
      obtain ⟨more, rfl, rfl⟩ := cons_of_ne_semicolon hsemi hne hts
      rw [List.cons_append, read_unary hop, read_unary hop]
      exact (ih (List.nil_subset _) rfl).behindThen op fun operand n _ => settled_done _ _
  | case9 op ts hstep hop ih =>
      rintro before - hts
      rw [isStep_iff] at hstep
      rw [isUnary_iff] at hop
      have hfront : ∀ more, Stops (steps ++ unaries) (op :: more) := fun more =>
        stops_append.mpr ⟨stops_cons.mpr hstep, stops_cons.mpr hop⟩
      have hfront' : Stops (steps ++ unaries) (before ++ semicolon :: rest') := by
        cases before with
        | nil => exact hstops rest' (by decide)
        | cons op' more =>
            obtain ⟨rfl, -⟩ := List.cons.inj hts
            exact hfront _
      rw [read_unary_of_stops (hfront ts), read_unary_of_stops hfront']
      exact ih (List.nil_subset _) hts
  | case10 ih =>
      rintro before - hts
      exact absurd hts.symm (List.append_ne_nil_of_right_ne_nil _ (List.cons_ne_nil _ _))
  | case11 ts ih =>
      rintro before - rfl
      rw [read_suffixed, read_suffixed]
      refine (ih (List.nil_subset _) rfl).andThen fun operand n hn => ?_
      rw [hdrop rest hn, hdrop rest' hn]
      exact stepOrStop_settled hsemi _ operand
  -- Primary expressions.
  | case19 t ts ht ih =>
      rintro before - hts
      obtain ⟨more, rfl, rfl⟩ := cons_of_ne_semicolon hsemi (by rw [ht]; decide) hts
      rw [List.cons_append, read_cast ht, read_cast ht]
      exact (ih (List.nil_subset _) rfl).behindThen t fun operand n _ => settled_done _ _
  | case20 t ts ht ih =>
      rintro before - hts
      obtain ⟨more, rfl, rfl⟩ := cons_of_ne_semicolon hsemi (by rw [ht]; decide) hts
      rw [List.cons_append, read_group ht, read_group ht]
      refine (ih (List.nil_subset _) rfl).behindThen t fun inner n hn => ?_
      rw [Nat.add_sub_cancel_left, hdrop rest hn, hdrop rest' hn]
      exact (expect_settled hsemi _ (by decide) _).andThen fun _ _ _ => settled_done _ _
  | case22 =>
      rintro before - hts
      exact absurd hts.symm (List.append_ne_nil_of_right_ne_nil _ (List.cons_ne_nil _ _))
  -- All others look at one token.
  | case12 t ts ht | case13 t ts ht | case14 t ts ht | case15 t ts ht | case16 t ts ht
  | case17 t ts ht | case18 t ts ht =>
      rintro before - hts
      obtain ⟨more, rfl, rfl⟩ := cons_of_ne_semicolon hsemi (by rw [ht]; decide) hts
      exact read_primary_settled (by rw [ht]; decide) (by rw [ht]; decide) more
  | case21 t ts h₁ h₂ h₃ h₄ h₅ h₆ h₇ hcast hparen =>
      rintro before - hts
      cases before with
      | nil =>
          obtain ⟨rfl, -⟩ := List.cons.inj hts
          rw [List.nil_append, read_primary_semicolon hsemi, read_primary_semicolon hsemi]
          exact settled_fail [] _
      | cons u more =>
          obtain ⟨rfl, -⟩ := List.cons.inj hts
          exact read_primary_settled hcast hparen more

end Goal

/-! ### Statements -/

namespace Reading

variable {α β : Type} {before : List Token} {r r' : Reading α}

/-- Two readings of the tokens `before` and a semicolon agree, and take no semicolon
if they stop. -/
def Closes (before : List Token) (r r' : Reading α) : Prop :=
  r = r' ∧ ∀ e, r.outcome = .error e → r.used ≤ before.length

theorem Settled.andThenCloses {next next' : α → Nat → Reading β} (h : Settled before r r')
    (hnext : ∀ a n, n ≤ before.length → Closes (before.drop n) (next a n) (next' a n)) :
    Closes before (r.andThen next) (r'.andThen next') := by
  obtain ⟨rfl, hused⟩ := h
  obtain ⟨outcome, n, reports⟩ := r
  cases outcome with
  | error e => exact ⟨rfl, fun _ _ => hused⟩
  | ok a =>
      obtain ⟨heq, hle⟩ := hnext a n hused
      refine ⟨?_, fun e he => ?_⟩
      · simp only [Reading.andThen, heq]
      · have hstop := hle e he
        rw [List.length_drop] at hstop
        have hn : n ≤ before.length := hused
        simp only [Reading.andThen]
        omega

theorem Closes.behind (t : Token) (h : Closes before r r') :
    Closes (t :: before) (r.behind 1) (r'.behind 1) := by
  obtain ⟨rfl, hstop⟩ := h
  refine ⟨rfl, fun e he => ?_⟩
  have hused := hstop e he
  simp only [Reading.behind, List.length_cons]
  omega

/-- The semicolon that closes what was found before. -/
theorem closes_expect {last last' : Nat} {semicolon : Token} {rest rest' : List Token}
    (hsemi : semicolon.kind = .semicolon) (before : List Token) (what : Expectation) (a : α) :
    Closes before
      ((expect last .semicolon what (before ++ semicolon :: rest)).andThen fun _ _ => .done a 0)
      ((expect last' .semicolon what (before ++ semicolon :: rest')).andThen fun _ _ =>
        .done a 0) := by
  cases before with
  | nil =>
      simp only [List.nil_append, expect, if_pos hsemi]
      refine ⟨rfl, fun e he => ?_⟩
      cases he
  | cons t more =>
      simp only [List.cons_append, expect]
      split
      · refine ⟨rfl, fun e he => ?_⟩
        cases he
      · exact ⟨rfl, fun _ _ => Nat.zero_le _⟩

end Reading

namespace Stmt

variable {last last' : Nat} {semicolon : Token} {rest rest' : List Token}

theorem readClosed_closes (hsemi : semicolon.kind = .semicolon) (before : List Token)
    (what : Expectation) (build : Expr → Stmt) :
    Closes before (readClosed last what build (before ++ semicolon :: rest))
      (readClosed last' what build (before ++ semicolon :: rest')) := by
  refine Settled.andThenCloses ?_ fun e n hn => ?_
  · exact Goal.read_settled hsemi (List.nil_subset _) rfl
  · rw [List.drop_append_of_le_length hn, List.drop_append_of_le_length hn]
    exact closes_expect hsemi _ what (build e)

theorem readInitial_closes (hsemi : semicolon.kind = .semicolon) (before : List Token)
    (type : Ty) (name : Token) :
    Closes before (readInitial last type name (before ++ semicolon :: rest))
      (readInitial last' type name (before ++ semicolon :: rest')) := by
  cases before with
  | nil =>
      have hne : semicolon.kind ≠ .equal := by
        rw [hsemi]
        decide
      simp only [List.nil_append, readInitial, if_neg hne]
      exact closes_expect hsemi [] _ _
  | cons t more =>
      simp only [List.cons_append, readInitial]
      split
      · rw [behind_andThen, behind_andThen]
        refine Closes.behind t (Settled.andThenCloses ?_ fun initial n hn => ?_)
        · exact Goal.read_settled hsemi (List.nil_subset _) rfl
        · rw [Nat.add_sub_cancel_left, List.drop_append_of_le_length hn,
            List.drop_append_of_le_length hn]
          exact closes_expect hsemi _ _ _
      · exact closes_expect hsemi (t :: more) _ _

theorem readDeclare_closes (hsemi : semicolon.kind = .semicolon) (before : List Token)
    (type : Ty) :
    Closes before (readDeclare last type (before ++ semicolon :: rest))
      (readDeclare last' type (before ++ semicolon :: rest')) := by
  have hname : ∀ last ts, readDeclare last type ts =
      (expect last .identifier .variableName ts).andThen fun name n =>
        readInitial last type name (ts.drop n) := fun _ _ => rfl
  rw [hname, hname]
  refine Settled.andThenCloses ?_ fun name n hn => ?_
  · exact Goal.expect_settled hsemi before (by decide) .variableName
  · rw [List.drop_append_of_le_length hn, List.drop_append_of_le_length hn]
    exact readInitial_closes hsemi (before.drop n) type name

/-- A statement that is no block is read without a look behind its semicolon, and if it
cannot be read, reading stops in front of the semicolon. -/
theorem readSimple_closes (hsemi : semicolon.kind = .semicolon) {before ts ts' : List Token}
    {t : Token} (hts : t :: ts = before ++ semicolon :: rest)
    (hts' : t :: ts' = before ++ semicolon :: rest') :
    Closes before (readSimple last t ts) (readSimple last' t ts') := by
  unfold readSimple
  split
  · rename_i type hk
    have hne : t.kind ≠ .semicolon := by
      rw [hk]
      exact nofun
    obtain ⟨more, rfl, rfl⟩ := Goal.cons_of_ne_semicolon hsemi hne hts
    obtain ⟨-, rfl⟩ := List.cons.inj hts'
    exact (readDeclare_closes hsemi more type).behind t
  · rename_i hk
    have hne : t.kind ≠ .semicolon := by
      rw [hk]
      decide
    obtain ⟨more, rfl, rfl⟩ := Goal.cons_of_ne_semicolon hsemi hne hts
    obtain ⟨-, rfl⟩ := List.cons.inj hts'
    exact (readClosed_closes hsemi more .printEnd .print).behind t
  · rw [hts, hts']
    exact readClosed_closes hsemi before .expressionEnd .expression

end Stmt

theorem skip_semicolon {t : Token} (h : t.kind = .semicolon) (ts : List Token) :
    skip (t :: ts) = 1 := by
  cases ts with
  | nil => simp [skip]
  | cons u rest => simp [skip, h]

theorem skip_cons {t u : Token} {ts : List Token} (ht : t.kind ≠ .semicolon)
    (hu : u.kind.startsDeclaration = false) : skip (t :: u :: ts) = 1 + skip (u :: ts) := by
  rw [skip, if_neg ht]
  simp [hu]

/-- What is skipped after an error ends with the next semicolon, if no statement starts
before it. -/
theorem skip_to_semicolon {before rest : List Token} {semicolon : Token}
    (hsemi : semicolon.kind = .semicolon) (hnone : ∀ t ∈ before, t.kind ≠ .semicolon)
    (hstart : ∀ t ∈ before.tail, t.kind.startsDeclaration = false) :
    skip (before ++ semicolon :: rest) = before.length + 1 := by
  induction before with
  | nil => exact skip_semicolon hsemi rest
  | cons t more ih =>
      have ht : t.kind ≠ .semicolon := hnone t List.mem_cons_self
      have hskip := ih (fun u hu => hnone u (List.mem_cons_of_mem _ hu))
        fun u hu => hstart u (List.mem_of_mem_tail hu)
      have hnext : ∃ u ts, more ++ semicolon :: rest = u :: ts ∧
          u.kind.startsDeclaration = false := by
        cases more with
        | nil => exact ⟨semicolon, rest, rfl, by rw [hsemi]; rfl⟩
        | cons u more => exact ⟨u, more ++ semicolon :: rest, rfl, hstart u List.mem_cons_self⟩
      obtain ⟨u, ts, hfront, hu⟩ := hnext
      rw [hfront] at hskip
      rw [List.cons_append, hfront, skip_cons ht hu, hskip, List.length_cons]
      omega

/-! ### Pieces of a program -/

namespace Parsed

/-- What two pieces of a program give, one behind the other. -/
def append (a b : Parsed) : Parsed := ⟨a.statements ++ b.statements, a.reports ++ b.reports⟩

theorem append_assoc (a b c : Parsed) : (a.append b).append c = a.append (b.append c) := by
  simp [append]

end Parsed

namespace Body

/-- The statements and reports of a body. -/
def parsed (b : Body) : Parsed := ⟨b.statements, b.reports⟩

theorem parsed_append (a b : Body) : (a.append b).parsed = a.parsed.append b.parsed := rfl

/-- The tokens give `p`, whatever stands behind them. -/
def Apart (ts : List Token) (p : Parsed) : Prop :=
  ∀ last rest, (read last false (ts ++ rest)).parsed = p.append (read last false rest).parsed

variable {ts us : List Token} {p q : Parsed}

theorem apart_nil : Apart [] ⟨[], []⟩ := fun _ _ => rfl

theorem Apart.append (h : Apart ts p) (h' : Apart us q) : Apart (ts ++ us) (p.append q) := by
  intro last rest
  rw [List.append_assoc, h, h', Parsed.append_assoc]

/-- Pieces that are read apart are what they give on their own. -/
theorem Apart.eq_parsed (h : Apart ts p) (last : Nat) : p = (read last false ts).parsed := by
  have halone := h last []
  rw [List.append_nil, read] at halone
  rw [halone]
  simp [Parsed.append, parsed, empty]

theorem apart_of_declares {s : Stmt} (h : Grammar.Declares ts s) : Apart ts ⟨[s], []⟩ := by
  obtain ⟨t, used, rfl, -⟩ := Grammar.front_of_declares h
  intro last rest
  have hinner := read_exact last (used ++ rest)
  have hfirst : (first last t (used ++ rest)).Leaves (t :: (used ++ rest)) [s] rest :=
    (first_leaves hinner).mpr ⟨s, t :: used, rfl, rfl, h⟩
  have hrest := drop_first hinner hfirst
  obtain ⟨n, hbody, -⟩ := hfirst
  rw [List.cons_append, read_cons, if_neg (by simp), hrest, hbody, parsed_append]
  rfl

/-- What can be read without reports is read so in front of anything. -/
theorem apart_of_declaresAll {ts : List Token} {stmts : List Stmt} :
    Grammar.DeclaresAll ts stmts → Apart ts ⟨stmts, []⟩
  | .nil => apart_nil
  | .cons hfirst hothers => (apart_of_declares hfirst).append (apart_of_declaresAll hothers)

/-- A statement that is no block and cannot be read is taken up to its semicolon, in front
of anything, with the reports that it has on its own. -/
theorem first_of_broken {t : Token} {before ts : List Token} {semicolon : Token}
    {last : Nat} (last' : Nat) (rest : List Token) (hts : t :: ts = before ++ [semicolon])
    (hsemi : semicolon.kind = .semicolon) (hnone : ∀ u ∈ before, u.kind ≠ .semicolon)
    (hstart : ∀ u ∈ before.tail, u.kind.startsDeclaration = false) (hbrace : t.kind ≠ .leftBrace)
    (hfails : (first last t ts).statements = []) :
    (first last' t (ts ++ rest)).parsed = (first last t ts).parsed ∧
      (first last' t (ts ++ rest)).used = (t :: ts).length := by
  have hts' : t :: (ts ++ rest) = before ++ semicolon :: rest := by
    rw [← List.cons_append, hts, List.append_assoc, List.singleton_append]
  obtain ⟨hread, hstop⟩ : Closes before (Stmt.readSimple last t ts)
      (Stmt.readSimple last' t (ts ++ rest)) := Stmt.readSimple_closes hsemi hts hts'
  simp only [first, if_neg hbrace] at hfails ⊢
  rw [← hread]
  cases hr : Stmt.readSimple last t ts with
  | mk outcome n reports =>
      rw [hr] at hfails hstop
      cases outcome with
      | ok s => cases hfails
      | error e =>
          have hn : n ≤ before.length := hstop e rfl
          refine ⟨rfl, ?_⟩
          have hskip : skip ((before ++ semicolon :: rest).drop n) = before.length - n + 1 := by
            rw [List.drop_append_of_le_length hn, skip_to_semicolon hsemi, List.length_drop]
            · exact fun u hu => hnone u (List.mem_of_mem_drop hu)
            · intro u hu
              rw [List.tail_drop, ← List.drop_tail] at hu
              exact hstart u (List.mem_of_mem_drop hu)
          simp only [recover]
          rw [hts', hskip, hts, List.length_append, List.length_singleton]
          omega

theorem apart_of_broken {t : Token} {before ts : List Token} {semicolon : Token} {last : Nat}
    (hts : t :: ts = before ++ [semicolon]) (hsemi : semicolon.kind = .semicolon)
    (hnone : ∀ u ∈ before, u.kind ≠ .semicolon)
    (hstart : ∀ u ∈ before.tail, u.kind.startsDeclaration = false) (hbrace : t.kind ≠ .leftBrace)
    (hfails : (read last false (t :: ts)).statements = []) :
    Apart (t :: ts) (first last t ts).parsed := by
  intro last' rest
  have hopen : ¬ (false && t.kind == .rightBrace) = true := by simp
  have hfirst : (first last t ts).statements = [] := by
    rw [read_cons, if_neg hopen] at hfails
    exact (List.append_eq_nil_iff.mp hfails).1
  obtain ⟨hparsed, hused⟩ := first_of_broken last' rest hts hsemi hnone hstart hbrace hfirst
  rw [List.cons_append, read_cons, if_neg hopen, parsed_append, hparsed, hused, List.length_cons,
    Nat.add_sub_cancel, List.drop_left]

end Body

/-! ### Self-contained pieces -/

/-- The tokens are one broken statement: they have no braces and one semicolon, at their
end, no statement starts behind their first token, and reading them gives no statement. -/
structure Broken (eof : Token) (ts : List Token) : Prop where
  braceless : ∀ t ∈ ts, t.kind ≠ .leftBrace ∧ t.kind ≠ .rightBrace
  closed : ∃ before semicolon, ts = before ++ [semicolon] ∧ semicolon.kind = .semicolon ∧
    ∀ t ∈ before, t.kind ≠ .semicolon
  unstarted : ∀ t ∈ ts.tail, t.kind.startsDeclaration = false
  fruitless : (parse (ts ++ [eof])).statements = []

/-- The tokens, in front of an end mark, are read without reports, or they are one broken
statement. -/
structure SelfContained (eof : Token) (ts : List Token) : Prop where
  mark : eof.kind = .eof
  nonempty : ts ≠ []
  endless : ∀ t ∈ ts, t.kind ≠ .eof
  readable : (parse (ts ++ [eof])).reports = [] ∨ Broken eof ts

/-- A self-contained piece gives the same in front of anything. -/
theorem SelfContained.apart {eof : Token} {ts : List Token} (h : SelfContained eof ts) :
    Body.Apart ts (parse (ts ++ [eof])) := by
  have hparse : parse (ts ++ [eof]) = (Body.read eof.line false ts).parsed :=
    parse_append_eof h.endless h.mark
  have hapart : ∃ p, Body.Apart ts p := by
    rcases h.readable with hclean | hbroken
    · rw [hparse] at hclean
      obtain ⟨used, hused, hall, hnil | ⟨⟨⟩, -⟩⟩ :=
        (Body.read_exact eof.line ts false _ _).mp ⟨_, congrArg (Body.mk _ _) hclean, rfl⟩
      rw [hnil, List.append_nil] at hused
      rw [hused]
      exact ⟨_, Body.apart_of_declaresAll hall⟩
    · obtain ⟨before, semicolon, hts, hsemi, hnone⟩ := hbroken.closed
      obtain ⟨t, others, rfl⟩ := List.exists_cons_of_ne_nil h.nonempty
      have hfails := hbroken.fruitless
      rw [hparse] at hfails
      have hstart : ∀ u ∈ before.tail, u.kind.startsDeclaration = false := by
        intro u hu
        apply hbroken.unstarted
        rw [hts, List.tail_append_of_ne_nil (by rintro rfl; cases hu)]
        exact List.mem_append_left _ hu
      exact ⟨_, Body.apart_of_broken hts hsemi hnone hstart
        (hbroken.braceless t List.mem_cons_self).1 hfails⟩
  obtain ⟨p, hp⟩ := hapart
  rw [hparse]
  rwa [hp.eq_parsed eof.line] at hp

theorem apart_flatMap {pieces : List (List Token × Token)}
    (hpieces : ∀ piece ∈ pieces, SelfContained piece.2 piece.1) :
    Body.Apart (pieces.flatMap Prod.fst)
      ⟨pieces.flatMap fun piece => (parse (piece.1 ++ [piece.2])).statements,
        pieces.flatMap fun piece => (parse (piece.1 ++ [piece.2])).reports⟩ := by
  induction pieces with
  | nil => exact Body.apart_nil
  | cons piece pieces ih =>
      have hpiece := (hpieces piece List.mem_cons_self).apart
      exact hpiece.append (ih fun other hother => hpieces other (List.mem_cons_of_mem _ hother))

/-- Self-contained pieces of a program are read one by one.  A program of such pieces, with
a rest that ends in an end mark, gives the statements of each piece read alone, in front of
an end mark of its own, and then those of the rest read alone, and likewise the reports. -/
theorem parse_selfContained {pieces : List (List Token × Token)}
    (hpieces : ∀ piece ∈ pieces, SelfContained piece.2 piece.1) (rest : List Token)
    (hrest : ∃ t, rest.getLast? = some t ∧ t.kind = .eof) :
    (parse (pieces.flatMap Prod.fst ++ rest)).statements =
        (pieces.flatMap fun piece => (parse (piece.1 ++ [piece.2])).statements) ++
          (parse rest).statements ∧
      (parse (pieces.flatMap Prod.fst ++ rest)).reports =
        (pieces.flatMap fun piece => (parse (piece.1 ++ [piece.2])).reports) ++
          (parse rest).reports := by
  obtain ⟨t, hlast, ht⟩ := hrest
  -- The rest is read up to its first end mark.
  have hfind : (rest.find? fun u => u.kind == .eof).isSome = true := by
    rw [List.find?_isSome]
    exact ⟨t, List.mem_of_getLast? hlast, by rw [ht]; rfl⟩
  obtain ⟨mark, hmark⟩ := Option.isSome_iff_exists.mp hfind
  obtain ⟨hkind, front, behind, rfl, hfront⟩ := List.find?_eq_some_iff_append.mp hmark
  have hkind : mark.kind = .eof := by simpa using hkind
  have hfront : ∀ u ∈ front, u.kind ≠ .eof := by simpa using hfront
  have hall : ∀ u ∈ pieces.flatMap Prod.fst ++ front, u.kind ≠ .eof := by
    intro u hu
    rcases List.mem_append.mp hu with hu | hu
    · obtain ⟨piece, hpiece, hmem⟩ := List.mem_flatMap.mp hu
      exact (hpieces piece hpiece).endless u hmem
    · exact hfront u hu
  have happart := apart_flatMap hpieces mark.line front
  rw [← List.append_assoc, parse_append_eof hall hkind, parse_append_eof hfront hkind]
  exact ⟨congrArg Parsed.statements happart, congrArg Parsed.reports happart⟩

/-- `1 = 2 ) ;`, which is wrong in two places. -/
def strayTarget : List Token :=
  [⟨.number, "1", 1, some (.int 1)⟩, ⟨.equal, "=", 1, none⟩, ⟨.number, "2", 1, some (.int 2)⟩,
    ⟨.rightParen, ")", 1, none⟩, ⟨.semicolon, ";", 1, none⟩]

/-- `int x ;` -/
def plainDeclaration : List Token :=
  [⟨.type .int, "int", 2, none⟩, ⟨.identifier, "x", 2, none⟩, ⟨.semicolon, ";", 2, none⟩]

/-- Both errors of the first piece are reported, and the declaration behind it is kept. -/
theorem parse_selfContained_stray :
    SelfContained ⟨.eof, "", 1, none⟩ strayTarget ∧
      SelfContained ⟨.eof, "", 2, none⟩ plainDeclaration ∧
      (parse (strayTarget ++ plainDeclaration ++ [⟨.eof, "", 3, none⟩])).statements =
        [.declare .int ⟨.identifier, "x", 2, none⟩ none] ∧
      (parse (strayTarget ++ plainDeclaration ++ [⟨.eof, "", 3, none⟩])).reports =
        [⟨1, .atLexeme "=", .invalidAssignmentTarget⟩,
          ⟨1, .atLexeme ")", .expected .expressionEnd⟩] := by
  have hread : parse (strayTarget ++ [⟨.eof, "", 1, none⟩]) =
      ⟨[], [⟨1, .atLexeme "=", .invalidAssignmentTarget⟩,
        ⟨1, .atLexeme ")", .expected .expressionEnd⟩]⟩ := by cbv
  have hread' : parse (plainDeclaration ++ [⟨.eof, "", 2, none⟩]) =
      ⟨[.declare .int ⟨.identifier, "x", 2, none⟩ none], []⟩ := by cbv
  have hend : parse [⟨.eof, "", 3, none⟩] = ⟨[], []⟩ := by cbv
  have hstray : SelfContained ⟨.eof, "", 1, none⟩ strayTarget := by
    refine ⟨rfl, by decide, by decide, .inr ⟨by decide, ?_, by decide, by rw [hread]⟩⟩
    exact ⟨strayTarget.dropLast, ⟨.semicolon, ";", 1, none⟩, rfl, rfl, by decide⟩
  have hplain : SelfContained ⟨.eof, "", 2, none⟩ plainDeclaration :=
    ⟨rfl, by decide, by decide, .inl (by rw [hread'])⟩
  have hpieces : ∀ piece ∈ [(strayTarget, (⟨.eof, "", 1, none⟩ : Token)),
      (plainDeclaration, ⟨.eof, "", 2, none⟩)], SelfContained piece.2 piece.1 := by
    intro piece hpiece
    simp only [List.mem_cons, List.not_mem_nil, or_false] at hpiece
    rcases hpiece with rfl | rfl
    · exact hstray
    · exact hplain
  obtain ⟨hstatements, hreports⟩ :=
    parse_selfContained hpieces [⟨.eof, "", 3, none⟩] ⟨_, rfl, rfl⟩
  simp only [List.flatMap_cons, List.flatMap_nil, List.append_nil, List.nil_append, hread,
    hread', hend] at hstatements hreports
  exact ⟨hstray, hplain, hstatements, hreports⟩

end SlotScript
