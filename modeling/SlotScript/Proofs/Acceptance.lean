import SlotScript.Proofs.Derivations

/-! # The parser accepts the grammar

Reading a program reports nothing exactly when its tokens are derived from the
grammar, and what it gives then is the tree of the derivation
(`parse_accepts_grammar`).  A block is read by reading a body up to its closing
brace, so the statement about bodies is by induction on the length of the tokens,
and says where a body ends: at the end of the tokens or, inside a block, before a
closing brace. -/

namespace SlotScript

open Reading Grammar Token.Kind

/-! ## Statements that are not blocks -/

namespace Expr

theorem derives_of_leaves {last : Nat} {ts rest : List Token} {e : Expr}
    (h : (Expr.read last ts).Leaves ts e rest) :
    ∃ used, ts = used ++ rest ∧ Derives .assignment used e :=
  derived_of_reads (Goal.leaves_iff_reads.mp h)

/-- An expression is read as it is derived, in front of a semicolon. -/
theorem leaves_of_derives {last : Nat} {used rest : List Token} {semicolon : Token} {e : Expr}
    (h : Derives .assignment used e) (hk : semicolon.kind = .semicolon) :
    (Expr.read last (used ++ semicolon :: rest)).Leaves (used ++ semicolon :: rest) e
      (semicolon :: rest) := by
  have hstop : Stops assignments (semicolon :: rest) ∧
      Stops (levels.flatten ++ steps) (semicolon :: rest) := by
    rw [stops_cons, stops_cons, hk]
    decide
  exact Goal.leaves_iff_reads.mpr (readable_of_derives h (semicolon :: rest) hstop.1 hstop.2)

end Expr

namespace Stmt

variable {last : Nat} {type : Ty} {name t : Token} {ts rest : List Token} {s : Stmt}

theorem readClosed_leaves {what : Expectation} {build : Expr → Stmt} :
    (readClosed last what build ts).Leaves ts s rest ↔
      ∃ e used semicolon, ts = used ++ semicolon :: rest ∧ Derives .assignment used e ∧
        semicolon.kind = .semicolon ∧ s = build e := by
  rw [readClosed, andThen_leaves fun e ts =>
    (expect last .semicolon what ts).andThen fun _ _ => .done (build e) 0]
  simp only [closing_leaves]
  constructor
  · rintro ⟨e, _, hread, semicolon, rfl, hk, rfl⟩
    obtain ⟨used, rfl, hderives⟩ := Expr.derives_of_leaves hread
    exact ⟨e, used, semicolon, rfl, hderives, hk, rfl⟩
  · rintro ⟨e, used, semicolon, rfl, hderives, hk, rfl⟩
    exact ⟨e, _, Expr.leaves_of_derives hderives hk, semicolon, rfl, hk, rfl⟩

/-- What follows the name of a variable that is declared. -/
def readInitial (last : Nat) (type : Ty) (name : Token) : List Token → Reading Stmt
  | t :: ts =>
    if t.kind = .equal then
      ((Expr.read last ts).behind 1).andThen fun initial n =>
        (expect last .semicolon .declarationEnd (ts.drop (n - 1))).andThen fun _ _ =>
          .done (.declare type name (some initial)) 0
    else
      (expect last .semicolon .declarationEnd (t :: ts)).andThen fun _ _ =>
        .done (.declare type name none) 0
  | [] => .fail (.atFront last [] (.expected .declarationEnd)) 0

theorem readInitial_leaves :
    (readInitial last type name ts).Leaves ts s rest ↔
      (∃ semicolon, ts = semicolon :: rest ∧ semicolon.kind = .semicolon ∧
        s = .declare type name none) ∨
      ∃ eq e used semicolon, ts = eq :: (used ++ semicolon :: rest) ∧ eq.kind = .equal ∧
        Derives .assignment used e ∧ semicolon.kind = .semicolon ∧
        s = .declare type name (some e) := by
  cases ts with
  | nil =>
      refine ⟨fun h => absurd h not_fail_leaves, ?_⟩
      rintro (⟨_, ⟨⟩, _⟩ | ⟨_, _, _, _, ⟨⟩, _⟩)
  | cons t ts =>
      by_cases ht : t.kind = .equal
      · rw [readInitial, if_pos ht, behind_andThen_leaves fun initial ts =>
          (expect last .semicolon .declarationEnd ts).andThen fun _ _ =>
            .done (Stmt.declare type name (some initial)) 0]
        simp only [closing_leaves]
        constructor
        · rintro ⟨e, _, hread, semicolon, rfl, hk, rfl⟩
          obtain ⟨used, rfl, hderives⟩ := Expr.derives_of_leaves hread
          exact .inr ⟨t, e, used, semicolon, rfl, ht, hderives, hk, rfl⟩
        · rintro (⟨semicolon, hts, hk, -⟩ | ⟨eq, e, used, semicolon, hts, -, hderives, hk, rfl⟩)
          · obtain ⟨rfl, -⟩ := List.cons.inj hts
            rw [ht] at hk
            cases hk
          · obtain ⟨rfl, rfl⟩ := List.cons.inj hts
            exact ⟨e, _, Expr.leaves_of_derives hderives hk, semicolon, rfl, hk, rfl⟩
      · rw [readInitial, if_neg ht, closing_leaves]
        constructor
        · rintro ⟨semicolon, hts, hk, rfl⟩
          exact .inl ⟨semicolon, hts, hk, rfl⟩
        · rintro (⟨semicolon, hts, hk, rfl⟩ | ⟨eq, _, _, _, hts, heq, -⟩)
          · exact ⟨semicolon, hts, hk, rfl⟩
          · obtain ⟨rfl, -⟩ := List.cons.inj hts
            exact absurd heq ht

theorem readDeclare_leaves :
    (readDeclare last type ts).Leaves ts s rest ↔
      ∃ name mid, ts = name :: mid ∧ name.kind = .identifier ∧
        (readInitial last type name mid).Leaves mid s rest := by
  have hread : readDeclare last type ts =
      (expect last .identifier .variableName ts).andThen fun name n =>
        readInitial last type name (ts.drop n) := rfl
  rw [hread, andThen_leaves]
  simp only [expect_leaves]
  constructor
  · rintro ⟨name, mid, ⟨hts, hname⟩, h⟩
    exact ⟨name, mid, hts, hname, h⟩
  · rintro ⟨name, mid, hts, hname, h⟩
    exact ⟨name, mid, ⟨hts, hname⟩, h⟩

/-- What starts as an expression does is read as one. -/
theorem readSimple_of_starts (h : t.kind ∈ Symbol.assignment.starts) :
    readSimple last t ts = readClosed last .expressionEnd .expression (t :: ts) := by
  unfold readSimple
  split
  · rename_i hk
    rw [hk] at h
    simp [Symbol.starts, unaries, steps, primaries] at h
  · rename_i hk
    rw [hk] at h
    simp [Symbol.starts, unaries, steps, primaries] at h
  · rfl

theorem declares_of_readSimple (h : (readSimple last t ts).Leaves (t :: ts) s rest) :
    ∃ used, t :: ts = used ++ rest ∧ Declares used s := by
  unfold readSimple at h
  split at h
  · rename_i type hk
    rw [behind_leaves, readDeclare_leaves] at h
    obtain ⟨name, mid, rfl, hname, h⟩ := h
    rcases readInitial_leaves.mp h with ⟨semicolon, rfl, hsemicolon, rfl⟩ |
      ⟨eq, e, used, semicolon, rfl, heq, hderives, hsemicolon, rfl⟩
    · exact ⟨[t, name, semicolon], rfl, .declare hk hname hsemicolon⟩
    · exact ⟨t :: name :: eq :: (used ++ [semicolon]), by simp,
        .declareInit hk hname heq hderives hsemicolon⟩
  · rename_i hk
    rw [behind_leaves, readClosed_leaves] at h
    obtain ⟨e, used, semicolon, rfl, hderives, hsemicolon, rfl⟩ := h
    exact ⟨t :: (used ++ [semicolon]), by simp, .print hk hderives hsemicolon⟩
  · obtain ⟨e, used, semicolon, hts, hderives, hsemicolon, rfl⟩ := readClosed_leaves.mp h
    exact ⟨used ++ [semicolon], by simp [hts], .expression hderives hsemicolon⟩

theorem readSimple_of_declares {used : List Token} (ht : t.kind ≠ .leftBrace)
    (hts : t :: ts = used ++ rest) (h : Declares used s) :
    (readSimple last t ts).Leaves (t :: ts) s rest := by
  cases h with
  | @declare k name semicolon type hk hname hsemicolon =>
      obtain ⟨rfl, rfl⟩ := List.cons.inj hts
      simp only [readSimple, hk, behind_leaves, readDeclare_leaves]
      exact ⟨name, _, rfl, hname, readInitial_leaves.mpr (.inl ⟨semicolon, rfl, hsemicolon, rfl⟩)⟩
  | @declareInit k name eq semicolon type ts e hk hname heq hderives hsemicolon =>
      obtain ⟨rfl, rfl⟩ := List.cons.inj hts
      simp only [readSimple, hk, behind_leaves, readDeclare_leaves]
      refine ⟨name, _, rfl, hname, readInitial_leaves.mpr (.inr ?_)⟩
      exact ⟨eq, e, ts, semicolon, by simp, heq, hderives, hsemicolon, rfl⟩
  | @print k semicolon ts e hk hderives hsemicolon =>
      obtain ⟨rfl, rfl⟩ := List.cons.inj hts
      simp only [readSimple, hk, behind_leaves, readClosed_leaves]
      exact ⟨e, ts, semicolon, by simp, hderives, hsemicolon, rfl⟩
  | block hl _ _ =>
      obtain ⟨rfl, -⟩ := List.cons.inj hts
      exact absurd hl ht
  | @expression semicolon ts e hderives hsemicolon =>
      obtain ⟨first, others, rfl, hfirst⟩ := starts_of_derives hderives
      obtain ⟨rfl, rfl⟩ := List.cons.inj hts
      rw [readSimple_of_starts hfirst, readClosed_leaves]
      exact ⟨e, t :: others, semicolon, by simp, hderives, hsemicolon, rfl⟩

end Stmt

/-! ## Blocks and bodies -/

namespace Grammar

/-- A statement is not empty and does not start with a closing brace. -/
theorem front_of_declares {used : List Token} {s : Stmt} (h : Declares used s) :
    ∃ t ts, used = t :: ts ∧ t.kind ≠ .rightBrace := by
  cases h with
  | declare hk _ _ | declareInit hk _ _ _ _ | print hk _ _ | block hk _ _ =>
      exact ⟨_, _, rfl, by rw [hk]; exact nofun⟩
  | expression hderives _ =>
      obtain ⟨t, ts, rfl, ht⟩ := starts_of_derives hderives
      refine ⟨t, _, rfl, fun hk => ?_⟩
      rw [hk] at ht
      exact absurd ht (by decide)

/-- A statement takes the first of the tokens. -/
theorem cons_of_declares {t : Token} {ts used rest : List Token} {s : Stmt} (h : Declares used s)
    (hts : t :: ts = used ++ rest) : ∃ used', used = t :: used' ∧ ts = used' ++ rest := by
  obtain ⟨_, used', rfl, _⟩ := front_of_declares h
  rw [List.cons_append] at hts
  obtain ⟨rfl, rfl⟩ := List.cons.inj hts
  exact ⟨used', rfl, rfl⟩

/-- What starts with an opening brace is a block. -/
theorem block_of_declares {l : Token} {ts : List Token} {s : Stmt} (h : Declares (l :: ts) s)
    (hl : l.kind = .leftBrace) :
    ∃ inner r body, ts = inner ++ [r] ∧ s = .block body ∧ DeclaresAll inner body ∧
      r.kind = .rightBrace := by
  generalize hused : l :: ts = used at h
  cases h with
  | @block _ r inner body _ hinner hr =>
      obtain ⟨rfl, rfl⟩ := List.cons.inj hused
      exact ⟨inner, r, body, rfl, rfl, hinner, hr⟩
  | declare hk _ _ | declareInit hk _ _ _ _ | print hk _ _ =>
      obtain ⟨rfl, _⟩ := List.cons.inj hused
      exact nomatch hk.symm.trans hl
  | expression hderives _ =>
      obtain ⟨t, _, rfl, ht⟩ := starts_of_derives hderives
      obtain ⟨rfl, _⟩ := List.cons.inj hused
      rw [hl] at ht
      exact absurd ht (by decide)

end Grammar

namespace Body

variable {last : Nat} {t : Token} {ts rest : List Token} {stmts : List Stmt}

/-- The body was read off the tokens `ts` without reports, and leaves `rest`. -/
def Leaves (b : Body) (ts : List Token) (stmts : List Stmt) (rest : List Token) : Prop :=
  ∃ n, b = ⟨stmts, n, []⟩ ∧ rest = ts.drop n

theorem empty_leaves : empty.Leaves ts stmts rest ↔ stmts = [] ∧ ts = rest := by
  constructor
  · rintro ⟨_, ⟨⟩, rfl⟩
    exact ⟨rfl, rfl⟩
  · rintro ⟨rfl, rfl⟩
    exact ⟨0, rfl, rfl⟩

theorem recover_leaves {r : Reading Stmt} :
    (r.recover ts).Leaves ts stmts rest ↔ ∃ s, stmts = [s] ∧ r.Leaves ts s rest := by
  obtain ⟨outcome, n, reports⟩ := r
  cases outcome with
  | error e => simp [Leaves, Reading.Leaves, Reading.recover, done]
  | ok s =>
      constructor
      · rintro ⟨_, ⟨⟩, hrest⟩
        exact ⟨s, rfl, n, rfl, hrest⟩
      · rintro ⟨_, rfl, _, ⟨⟩, hrest⟩
        exact ⟨n, rfl, hrest⟩

theorem append_leaves {a b : Body} :
    (a.append b).Leaves ts stmts rest ↔
      ∃ first mid others, a.Leaves ts first mid ∧ b.Leaves mid others rest ∧
        stmts = first ++ others := by
  obtain ⟨first, k, reports⟩ := a
  obtain ⟨others, m, reports'⟩ := b
  simp only [Leaves, append, Body.mk.injEq, List.append_eq_nil_iff]
  constructor
  · rintro ⟨_, ⟨rfl, rfl, hr, hr'⟩, rfl⟩
    exact ⟨first, ts.drop k, others, ⟨k, ⟨rfl, rfl, hr⟩, rfl⟩, ⟨m, ⟨rfl, rfl, hr'⟩,
      List.drop_drop.symm⟩, rfl⟩
  · rintro ⟨_, _, _, ⟨_, ⟨rfl, rfl, hr⟩, rfl⟩, ⟨_, ⟨rfl, rfl, hr'⟩, rfl⟩, rfl⟩
    exact ⟨k + m, ⟨rfl, rfl, hr, hr'⟩, List.drop_drop⟩

/-- A block is closed where its body leaves a closing brace. -/
theorem close_leaves {inner : Body} {s : Stmt} :
    (close last inner ts).Leaves (t :: ts) s rest ↔
      ∃ body r, inner.Leaves ts body (r :: rest) ∧ r.kind = .rightBrace ∧ s = .block body := by
  obtain ⟨body, k, reports⟩ := inner
  have hdrop : (t :: ts).drop (1 + k + 1) = (ts.drop k).drop 1 := by
    rw [List.drop_succ_cons, List.drop_drop, Nat.add_comm]
  constructor
  · rintro ⟨n, h, rfl⟩
    simp only [close, done, Reading.mk.injEq] at h
    obtain ⟨houtcome, rfl, rfl⟩ := h
    cases hts : ts.drop k with
    | nil => simp [hts, expect, fail, Except.map] at houtcome
    | cons r behind =>
        by_cases hr : r.kind = .rightBrace
        · simp only [hts, expect, if_pos hr, done, Except.map, Except.ok.injEq] at houtcome ⊢
          refine ⟨body, r, ⟨k, rfl, ?_⟩, hr, houtcome.symm⟩
          rw [hdrop, hts, List.drop_succ_cons, List.drop_zero]
        · simp [hts, expect, if_neg hr, fail, Except.map] at houtcome
  · rintro ⟨_, r, ⟨_, ⟨⟩, hrest⟩, hr, rfl⟩
    refine ⟨1 + k + 1, ?_, ?_⟩
    · simp only [close, ← hrest, expect, if_pos hr, done, Except.map]
    · rw [hdrop, ← hrest, List.drop_succ_cons, List.drop_zero]

/-- A body ends with the tokens, or inside a block before a closing brace. -/
def Ends (nested : Bool) (rest : List Token) : Prop :=
  rest = [] ∨ nested = true ∧ ∃ r others, rest = r :: others ∧ r.kind = .rightBrace

/-- The reading of one statement, that starts with `t`. -/
def first (last : Nat) (t : Token) (ts : List Token) : Body :=
  if t.kind = .leftBrace then (close last (read last true ts) ts).recover (t :: ts)
  else (Stmt.readSimple last t ts).recover (t :: ts)

theorem read_cons (last : Nat) (nested : Bool) (t : Token) (ts : List Token) :
    read last nested (t :: ts) =
      if nested && t.kind == .rightBrace then empty
      else (first last t ts).append (read last nested (ts.drop ((first last t ts).used - 1))) := by
  rw [read]
  rfl

/-- Bodies are read without reports off the tokens exactly as they are derived. -/
def Exact (last : Nat) (ts : List Token) : Prop :=
  ∀ nested stmts rest, (read last nested ts).Leaves ts stmts rest ↔
    ∃ used, ts = used ++ rest ∧ DeclaresAll used stmts ∧ Ends nested rest

/-- One statement is read exactly as it is derived, if that holds of the bodies that
a block may have. -/
theorem first_leaves (hinner : Exact last ts) :
    (first last t ts).Leaves (t :: ts) stmts rest ↔
      ∃ s used, stmts = [s] ∧ t :: ts = used ++ rest ∧ Declares used s := by
  unfold first
  by_cases ht : t.kind = .leftBrace
  · rw [if_pos ht, recover_leaves]
    simp only [close_leaves]
    constructor
    · rintro ⟨_, rfl, body, r, hbody, hr, rfl⟩
      obtain ⟨inner, rfl, hall, -⟩ := (hinner true body _).mp hbody
      exact ⟨_, t :: (inner ++ [r]), rfl, by simp, .block ht hall hr⟩
    · rintro ⟨s, used, rfl, hts, hdeclares⟩
      obtain ⟨_, rfl, rfl⟩ := cons_of_declares hdeclares hts
      obtain ⟨inner, r, body, rfl, rfl, hall, hr⟩ := block_of_declares hdeclares ht
      have hends : Ends true (r :: rest) := .inr ⟨rfl, r, rest, rfl, hr⟩
      exact ⟨_, rfl, body, r, (hinner true body _).mpr ⟨inner, by simp, hall, hends⟩, hr, rfl⟩
  · rw [if_neg ht, recover_leaves]
    constructor
    · rintro ⟨s, rfl, hsimple⟩
      obtain ⟨used, hts, hdeclares⟩ := Stmt.declares_of_readSimple hsimple
      exact ⟨s, used, rfl, hts, hdeclares⟩
    · rintro ⟨s, used, rfl, hts, hdeclares⟩
      exact ⟨s, rfl, Stmt.readSimple_of_declares ht hts hdeclares⟩

/-- Reading goes on with what the first statement leaves. -/
theorem drop_first (hinner : Exact last ts) (h : (first last t ts).Leaves (t :: ts) stmts rest) :
    ts.drop ((first last t ts).used - 1) = rest := by
  obtain ⟨s, used, -, hts, hdeclares⟩ := (first_leaves hinner).mp h
  obtain ⟨used, rfl, rfl⟩ := cons_of_declares hdeclares hts
  obtain ⟨n, hfirst, hrest⟩ := h
  rw [hfirst]
  cases n with
  | zero =>
      have := congrArg List.length hrest
      simp only [List.drop_zero, List.length_cons, List.length_append] at this
      omega
  | succ n =>
      rw [List.drop_succ_cons] at hrest
      exact hrest.symm

/-- What is derived as a body is empty or starts with no closing brace. -/
theorem nil_of_declaresAll {used : List Token} {stmts : List Stmt} (h : DeclaresAll used stmts)
    (hused : ∀ t ts, used = t :: ts → t.kind = .rightBrace) : used = [] ∧ stmts = [] := by
  cases h with
  | nil => exact ⟨rfl, rfl⟩
  | cons hfirst _ =>
      obtain ⟨t, ts, rfl, ht⟩ := front_of_declares hfirst
      exact absurd (hused t _ rfl) ht

theorem exact_nil (last : Nat) : Exact last [] := by
  intro nested stmts rest
  rw [read, empty_leaves]
  constructor
  · rintro ⟨rfl, rfl⟩
    exact ⟨[], rfl, .nil, .inl rfl⟩
  · rintro ⟨used, hts, hall, -⟩
    obtain ⟨rfl, rfl⟩ := List.append_eq_nil_iff.mp hts.symm
    obtain ⟨-, rfl⟩ := nil_of_declaresAll hall (by rintro _ _ ⟨⟩)
    exact ⟨rfl, rfl⟩

/-- A body that starts with `t` is read exactly as it is derived, if that holds of all
shorter ones: of the inside of a block, and of what follows the first statement. -/
theorem exact_cons (ih : ∀ rest : List Token, rest.length ≤ ts.length → Exact last rest) :
    Exact last (t :: ts) := by
  intro nested stmts rest
  have hinner : Exact last ts := ih ts (Nat.le_refl _)
  rw [read_cons]
  by_cases hend : (nested && t.kind == .rightBrace) = true
  · rw [if_pos hend, empty_leaves]
    rw [Bool.and_eq_true, beq_iff_eq] at hend
    constructor
    · rintro ⟨rfl, rfl⟩
      exact ⟨[], rfl, .nil, .inr ⟨hend.1, t, ts, rfl, hend.2⟩⟩
    · rintro ⟨used, hts, hall, -⟩
      have hbrace : ∀ u us, used = u :: us → u.kind = .rightBrace := by
        rintro u us rfl
        rw [← (List.cons.inj hts).1]
        exact hend.2
      obtain ⟨rfl, rfl⟩ := nil_of_declaresAll hall hbrace
      exact ⟨rfl, hts⟩
  · rw [if_neg hend, append_leaves]
    constructor
    · rintro ⟨_, mid, others, hfirst, hothers, rfl⟩
      rw [drop_first hinner hfirst] at hothers
      obtain ⟨s, used, rfl, hts, hdeclares⟩ := (first_leaves hinner).mp hfirst
      obtain ⟨used, rfl, rfl⟩ := cons_of_declares hdeclares hts
      have hmid : mid.length ≤ (used ++ mid).length := by
        rw [List.length_append]
        omega
      obtain ⟨used', rfl, hall, hends⟩ := (ih mid hmid nested others rest).mp hothers
      exact ⟨t :: used ++ used', by simp, .cons hdeclares hall, hends⟩
    · rintro ⟨_, hts, hall, hends⟩
      cases hall with
      | nil =>
          -- Nothing is derived here only where the body ends.
          rw [List.nil_append] at hts
          subst hts
          rcases hends with hnil | ⟨rfl, r, _, hr, hkind⟩
          · exact absurd hnil (List.cons_ne_nil _ _)
          · obtain ⟨rfl, -⟩ := List.cons.inj hr
            simp [hkind] at hend
      | @cons used used' s others hdeclares hothers =>
          rw [List.append_assoc] at hts
          have hfirst : (first last t ts).Leaves (t :: ts) [s] (used' ++ rest) :=
            (first_leaves hinner).mpr ⟨s, used, rfl, hts, hdeclares⟩
          refine ⟨[s], used' ++ rest, others, hfirst, ?_, rfl⟩
          rw [drop_first hinner hfirst]
          obtain ⟨used, rfl, rfl⟩ := cons_of_declares hdeclares hts
          have hmid : (used' ++ rest).length ≤ (used ++ (used' ++ rest)).length := by
            simp only [List.length_append]
            omega
          exact (ih _ hmid nested others rest).mpr ⟨used', rfl, hothers, hends⟩

/-- Bodies are read exactly as they are derived, by induction on their length. -/
theorem read_exact (last : Nat) (ts : List Token) : Exact last ts := by
  induction hlength : ts.length using Nat.strongRecOn generalizing ts with
  | ind m ih =>
      cases ts with
      | nil => exact exact_nil last
      | cons t ts =>
          refine exact_cons fun rest hrest => ih rest.length ?_ rest rfl
          rw [List.length_cons] at hlength
          omega

end Body

/-! ## Programs -/

/-- A program's tokens stand before the first end mark. -/
theorem parse_append_eof {body behind : List Token} {eof : Token}
    (hbody : ∀ t ∈ body, t.kind ≠ .eof) (heof : eof.kind = .eof) :
    parse (body ++ eof :: behind) =
      ⟨(Body.read eof.line false body).statements, (Body.read eof.line false body).reports⟩ := by
  have hprogram : programOf (body ++ eof :: behind) = body := by
    rw [programOf, List.takeWhile_append_of_pos]
    · simp [heof]
    · simpa using hbody
  have hline : endLine (body ++ eof :: behind) = eof.line := by
    rw [endLine, List.find?_append, List.find?_eq_none.mpr (by simpa using hbody)]
    simp [heof]
  simp only [parse, hprogram, hline]

/-- Whatever stands in front of the end mark, the parser reports nothing exactly when
it is a program of the grammar, and then its statements are the program's tree. -/
theorem parse_accepts_grammar {body : List Token} {eof : Token}
    (hbody : ∀ t ∈ body, t.kind ≠ .eof) (heof : eof.kind = .eof) :
    ((parse (body ++ [eof])).reports = [] ↔ ∃ program, DeclaresAll body program) ∧
      ∀ program, DeclaresAll body program → (parse (body ++ [eof])).statements = program := by
  have hread := Body.read_exact eof.line body false
  rw [parse_append_eof hbody heof]
  refine ⟨⟨fun hreports => ?_, ?_⟩, ?_⟩
  · obtain ⟨used, hused, hall, hnil | ⟨⟨⟩, -⟩⟩ :=
      (hread _ _).mp ⟨_, congrArg (Body.mk _ _) hreports, rfl⟩
    rw [hnil, List.append_nil] at hused
    rw [hused]
    exact ⟨_, hall⟩
  · rintro ⟨program, hprogram⟩
    obtain ⟨n, hn, -⟩ := (hread program []).mpr ⟨body, by simp, hprogram, .inl rfl⟩
    rw [hn]
  · intro program hprogram
    obtain ⟨n, hn, -⟩ := (hread program []).mpr ⟨body, by simp, hprogram, .inl rfl⟩
    rw [hn]

/-- `{ x **= -y ** 2 ** z; }` -/
def powers : List Token :=
  [⟨.leftBrace, "\x7b", 1, none⟩, ⟨.identifier, "x", 1, none⟩, ⟨.powerEqual, "**=", 1, none⟩,
    ⟨.minus, "-", 1, none⟩, ⟨.identifier, "y", 1, none⟩, ⟨.power, "**", 1, none⟩,
    ⟨.number, "2", 1, some (.int 2)⟩, ⟨.power, "**", 1, none⟩, ⟨.identifier, "z", 1, none⟩,
    ⟨.semicolon, ";", 1, none⟩, ⟨.rightBrace, "\x7d", 1, none⟩]

/-- `{ x = x ** (((-y) ** 2) ** z); }`, where no parentheses are kept. -/
def powersTree : Stmt :=
  let x : Token := ⟨.identifier, "x", 1, none⟩
  let power : Token := ⟨.power, "**", 1, none⟩
  let negated : Expr := .unary ⟨.minus, "-", 1, none⟩ (.var ⟨.identifier, "y", 1, none⟩)
  .block [.expression (.assign x (.binary (.var x) power
    (.binary (.binary negated power (.literal (.int 2))) power (.var ⟨.identifier, "z", 1, none⟩))))]

theorem powers_declares : DeclaresAll powers [powersTree] := by
  have hpower : (⟨.power, "**", 1, none⟩ : Token).kind ∈ Tier.exponent.operators := by decide
  have hy : Derives .unary [⟨.minus, "-", 1, none⟩, ⟨.identifier, "y", 1, none⟩] _ :=
    .unary (by decide) (.postfixed (.primary (.var rfl)))
  have htwo : Derives .unary [⟨.number, "2", 1, some (.int 2)⟩] _ :=
    .postfixed (.primary (.literal (by decide) rfl))
  have hz : Derives .unary [⟨.identifier, "z", 1, none⟩] _ := .postfixed (.primary (.var rfl))
  have hvalue : Derives .assignment _ _ :=
    .unassigned <| .operand .or <| .operand .and <| .operand .equality <| .operand .comparison <|
      .operand .bitOr <| .operand .bitXor <| .operand .bitAnd <| .operand .shift <|
      .operand .term <| .operand .factor <|
      .operator .exponent (.operator .exponent (.operand .exponent hy) hpower htwo) hpower hz
  have hassign : Declares (_ :: _ :: _ ++ [⟨.semicolon, ";", 1, none⟩]) _ :=
    .expression (.compound (show (⟨.identifier, "x", 1, none⟩ : Token).kind = .identifier from rfl)
      (show ((⟨.powerEqual, "**=", 1, none⟩ : Token).kind, Token.Kind.power) ∈ compounds by decide)
      hvalue) rfl
  exact .cons (.block rfl (.cons hassign .nil) rfl) .nil

/-- An operand's sign binds tighter than `**`, which groups to the left, and a compound
assignment applies its operator to all that stands behind it. -/
theorem parse_accepts_grammar_powers :
    (∀ t ∈ powers, t.kind ≠ .eof) ∧
      (parse (powers ++ [⟨.eof, "", 1, none⟩])).reports = [] ∧
      (parse (powers ++ [⟨.eof, "", 1, none⟩])).statements = [powersTree] := by
  have hbody : ∀ t ∈ powers, t.kind ≠ .eof := by decide
  have heof : (⟨.eof, "", 1, none⟩ : Token).kind = .eof := rfl
  obtain ⟨haccepts, htree⟩ := parse_accepts_grammar hbody heof
  exact ⟨hbody, haccepts.mpr ⟨_, powers_declares⟩, htree _ powers_declares⟩

end SlotScript
