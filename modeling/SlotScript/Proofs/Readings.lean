import SlotScript.Parsing.Basic

/-! # Readings without reports

`r.Leaves ts a rest` says that the reading `r` of the tokens `ts` has no reports, that
it found `a`, and that the tokens `rest` remain.  How readings are put together is
described in these terms here, once (`andThen_leaves`, `behind_andThen_leaves`,
`expect_leaves`), so that later proofs do not count tokens. -/

namespace SlotScript

namespace Reading

variable {α β : Type} {r : Reading α} {a b : α} {t : Token} {ts rest : List Token}

theorem done_eq_done {k n : Nat} : done a k = done b n ↔ a = b ∧ k = n := by
  simp [done]

theorem andThen_eq_done {next : α → Nat → Reading β} {b : β} {n : Nat} :
    r.andThen next = .done b n ↔
      ∃ a k m, r = .done a k ∧ next a k = .done b m ∧ n = k + m := by
  obtain ⟨outcome, used, reports⟩ := r
  cases outcome with
  | error e => simp [andThen, done]
  | ok a =>
      simp only [andThen, done, Reading.mk.injEq, Except.ok.injEq, List.append_eq_nil_iff]
      constructor
      · rintro ⟨ho, hu, hr, hs⟩
        refine ⟨a, used, (next a used).used, ⟨rfl, rfl, hr⟩, ?_, hu.symm⟩
        rw [← ho, ← hs]
      · rintro ⟨_, _, m, ⟨rfl, rfl, hr⟩, hnext, rfl⟩
        rw [hnext]
        exact ⟨rfl, rfl, hr, rfl⟩

/-- The reading of `ts` reports nothing, finds `a` and leaves `rest`. -/
def Leaves (r : Reading α) (ts : List Token) (a : α) (rest : List Token) : Prop :=
  ∃ n, r = .done a n ∧ rest = ts.drop n

theorem Leaves.eq_drop (h : r.Leaves ts a rest) : ∃ n, rest = ts.drop n := by
  obtain ⟨n, -, hrest⟩ := h
  exact ⟨n, hrest⟩

theorem done_leaves : (done a 0).Leaves ts b rest ↔ a = b ∧ ts = rest := by
  constructor
  · rintro ⟨n, h, rfl⟩
    obtain ⟨rfl, rfl⟩ := done_eq_done.mp h
    exact ⟨rfl, rfl⟩
  · rintro ⟨rfl, rfl⟩
    exact ⟨0, rfl, rfl⟩

theorem done_one_leaves : (done a 1).Leaves (t :: ts) b rest ↔ a = b ∧ ts = rest := by
  constructor
  · rintro ⟨n, h, rfl⟩
    obtain ⟨rfl, rfl⟩ := done_eq_done.mp h
    exact ⟨rfl, rfl⟩
  · rintro ⟨rfl, rfl⟩
    exact ⟨1, rfl, rfl⟩

theorem not_fail_leaves {e : SyntaxError} {n : Nat} : ¬(fail e n).Leaves ts a rest := by
  rintro ⟨n, h, -⟩
  simp [fail, done] at h

/-- One reading behind another reads what that leaves. -/
theorem andThen_leaves (next : α → List Token → Reading β) {b : β} :
    (r.andThen fun a n => next a (ts.drop n)).Leaves ts b rest ↔
      ∃ a mid, r.Leaves ts a mid ∧ (next a mid).Leaves mid b rest := by
  constructor
  · rintro ⟨n, h, rfl⟩
    obtain ⟨a, k, m, hr, hnext, rfl⟩ := andThen_eq_done.mp h
    exact ⟨a, ts.drop k, ⟨k, hr, rfl⟩, m, hnext, List.drop_drop.symm⟩
  · rintro ⟨a, _, ⟨k, hr, rfl⟩, m, hnext, rfl⟩
    exact ⟨k + m, andThen_eq_done.mpr ⟨a, k, m, hr, hnext, rfl⟩, List.drop_drop⟩

theorem behind_leaves : (r.behind 1).Leaves (t :: ts) a rest ↔ r.Leaves ts a rest := by
  obtain ⟨outcome, n, reports⟩ := r
  simp only [Leaves, behind, done, Reading.mk.injEq]
  constructor
  · rintro ⟨_, ⟨ho, rfl, hr⟩, rfl⟩
    exact ⟨n, ⟨ho, rfl, hr⟩, by rw [Nat.add_comm, List.drop_succ_cons]⟩
  · rintro ⟨_, ⟨ho, rfl, hr⟩, rfl⟩
    exact ⟨1 + n, ⟨ho, rfl, hr⟩, by rw [Nat.add_comm, List.drop_succ_cons]⟩

theorem behind_andThen (r : Reading α) (next : α → Nat → Reading β) :
    (r.behind 1).andThen next = (r.andThen fun a n => next a (1 + n)).behind 1 := by
  obtain ⟨outcome, n, reports⟩ := r
  cases outcome with
  | error e => rfl
  | ok a => simp only [behind, andThen, Nat.add_assoc]

/-- The same behind a token that was taken before. -/
theorem behind_andThen_leaves (next : α → List Token → Reading β) {b : β} :
    ((r.behind 1).andThen fun a n => next a (ts.drop (n - 1))).Leaves (t :: ts) b rest ↔
      ∃ a mid, r.Leaves ts a mid ∧ (next a mid).Leaves mid b rest := by
  rw [behind_andThen]
  simp only [Nat.add_sub_cancel_left]
  rw [behind_leaves, andThen_leaves]

/-- A reading behind a token, made into something else. -/
theorem behind_build_leaves (build : α → β) {b : β} :
    ((r.behind 1).andThen fun a _ => .done (build a) 0).Leaves (t :: ts) b rest ↔
      ∃ a, r.Leaves ts a rest ∧ b = build a := by
  rw [behind_andThen_leaves fun a _ => Reading.done (build a) 0]
  simp only [done_leaves]
  constructor
  · rintro ⟨a, _, ha, rfl, rfl⟩
    exact ⟨a, ha, rfl⟩
  · rintro ⟨a, ha, rfl⟩
    exact ⟨a, rest, ha, rfl, rfl⟩

theorem expect_leaves {last : Nat} {kind : Token.Kind} {what : Expectation} :
    (expect last kind what ts).Leaves ts t rest ↔ ts = t :: rest ∧ t.kind = kind := by
  unfold expect
  split
  · rename_i u ts
    by_cases hk : u.kind = kind
    · rw [if_pos hk, done_one_leaves, List.cons.injEq]
      constructor
      · rintro ⟨rfl, rfl⟩
        exact ⟨⟨rfl, rfl⟩, hk⟩
      · rintro ⟨⟨rfl, rfl⟩, -⟩
        exact ⟨rfl, rfl⟩
    · rw [if_neg hk]
      refine ⟨fun h => absurd h not_fail_leaves, ?_⟩
      rintro ⟨⟨⟩, hk'⟩
      exact absurd hk' hk
  · exact ⟨fun h => absurd h not_fail_leaves, fun h => absurd h.1.symm (List.cons_ne_nil _ _)⟩

/-- A token that closes what was found before. -/
theorem closing_leaves {last : Nat} {kind : Token.Kind} {what : Expectation} :
    ((expect last kind what ts).andThen fun _ _ => .done a 0).Leaves ts b rest ↔
      ∃ t, ts = t :: rest ∧ t.kind = kind ∧ a = b := by
  rw [andThen_leaves fun _ _ => .done a 0]
  simp only [expect_leaves, done_leaves]
  constructor
  · rintro ⟨t, _, ⟨rfl, hk⟩, rfl, rfl⟩
    exact ⟨t, rfl, hk, rfl⟩
  · rintro ⟨t, rfl, hk, rfl⟩
    exact ⟨t, rest, ⟨rfl, hk⟩, rfl, rfl⟩

end Reading

end SlotScript
