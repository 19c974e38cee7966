import SlotScript.Proofs.Locality

/-! # Where reading goes on after an error

A declaration that cannot be read is given up where its reading stopped.  One token is
passed over without a look at it, and reading goes on at the first place behind that token
where it may start afresh (`firstRestart_skip`).

A reader might expect it to go on at the first such place that is not the start of the
failed declaration itself.  The two differ in one case only: the reading stopped, behind the
start of the declaration, right at a token that starts another one (`parse_resumes`).  So a
missing semicolon hides the declaration that follows (`parse_hides_declaration`). -/

namespace SlotScript

open Reading

/-! ### Places of a program -/

theorem parse_eq (tokens : List Token) :
    parse tokens = (Body.read (endLine tokens) false (programOf tokens)).parsed := rfl

/-- Reading may start afresh at the place `j`: the program ends there, a declaration starts
there, or a semicolon stands in front of it. -/
def Restart (tokens : List Token) (j : Nat) : Prop :=
  (∀ t ∈ tokens[j]?, t.kind = .eof ∨ t.kind.startsDeclaration = true) ∨
    0 < j ∧ ∃ t ∈ tokens[j - 1]?, t.kind = .semicolon

/-- The first place from `i` on where reading may start afresh is `j`. -/
structure FirstRestart (tokens : List Token) (i j : Nat) : Prop where
  le : i ≤ j
  restart : Restart tokens j
  first : ∀ m, i ≤ m → m < j → ¬ Restart tokens m

variable {tokens : List Token} {i j s : Nat}

theorem firstRestart_self (h : Restart tokens i) : FirstRestart tokens i i := by
  refine ⟨Nat.le_refl i, h, fun m hle hlt => ?_⟩
  omega

theorem FirstRestart.of_succ (h : FirstRestart tokens (i + 1) j) (hi : ¬ Restart tokens i) :
    FirstRestart tokens i j := by
  have hle := h.le
  refine ⟨by omega, h.restart, fun m hm hlt => ?_⟩
  by_cases heq : m = i
  · rw [heq]
    exact hi
  · exact h.first m (by omega) hlt

/-- Places behind `s`, from `s + k` on: none is lost by starting one later if there are no
tokens in between, or if reading cannot start afresh at the first of them. -/
theorem firstRestart_max_iff {k : Nat} (h : FirstRestart tokens (s + k + 1) j) :
    FirstRestart tokens (max (s + k) (s + 1)) j ↔ k = 0 ∨ ¬ Restart tokens (s + k) := by
  by_cases hk : k = 0
  · have hmax : max (s + k) (s + 1) = s + k + 1 := by omega
    rw [hmax]
    exact ⟨fun _ => .inl hk, fun _ => h⟩
  · have hmax : max (s + k) (s + 1) = s + k := by omega
    have hlt := h.le
    rw [hmax]
    constructor
    · intro hfirst
      exact .inr (hfirst.first (s + k) (Nat.le_refl _) (by omega))
    · rintro (hzero | hnot)
      · exact absurd hzero hk
      · exact h.of_succ hnot

theorem getElem?_of_drop {t : Token} {ts : List Token} (h : (programOf tokens).drop i = t :: ts) :
    tokens[i]? = some t ∧ t.kind ≠ .eof := by
  have hat : (programOf tokens)[i]? = some t := by
    rw [← List.head?_drop, h, List.head?_cons]
  have hmem : t ∈ programOf tokens := List.mem_of_getElem? hat
  have hall := List.all_eq_true.mp List.all_takeWhile t hmem
  refine ⟨?_, by simpa using hall⟩
  have hlt : i < (programOf tokens).length := (List.getElem?_eq_some_iff.mp hat).1
  have hwhole : programOf tokens ++ tokens.dropWhile (fun t => !(t.kind == .eof)) = tokens :=
    List.takeWhile_append_dropWhile
  rw [← hwhole, List.getElem?_append_left hlt, hat]

theorem exists_drop (h : i < (programOf tokens).length) :
    ∃ t ts, (programOf tokens).drop i = t :: ts :=
  ⟨_, _, List.drop_eq_getElem_cons h⟩

theorem eof_of_length {t : Token} (h : tokens[(programOf tokens).length]? = some t) :
    t.kind = .eof := by
  induction tokens with
  | nil => cases h
  | cons u more ih =>
      by_cases hu : u.kind = .eof
      · simp [programOf, hu] at h
        rw [← h, hu]
      · simp [programOf, hu] at h
        exact ih h

theorem skip_pos (t : Token) (ts : List Token) : 0 < skip (t :: ts) := by
  unfold skip
  split
  · exact Nat.one_pos
  · split
    · split
      · exact Nat.one_pos
      · omega
    · exact Nat.one_pos

/-- What is skipped reaches to the first place behind its first token where reading may
start afresh. -/
theorem firstRestart_skip {t : Token} {ts : List Token}
    (h : (programOf tokens).drop i = t :: ts) :
    FirstRestart tokens (i + 1) (i + skip (t :: ts)) := by
  induction ts generalizing i t with
  | nil =>
      have hlength : i + 1 = (programOf tokens).length := by
        have := congrArg List.length h
        simp at this
        omega
      have hskip : skip [t] = 1 := by simp [skip]
      rw [hskip]
      refine firstRestart_self (.inl fun u hu => .inl ?_)
      rw [hlength] at hu
      exact eof_of_length hu
  | cons u more ih =>
      have hnext : (programOf tokens).drop (i + 1) = u :: more := by
        rw [← List.drop_drop, h, List.drop_succ_cons, List.drop_zero]
      obtain ⟨hat, -⟩ := getElem?_of_drop h
      obtain ⟨hat', heof⟩ := getElem?_of_drop hnext
      by_cases ht : t.kind = .semicolon
      · rw [skip_semicolon ht]
        exact firstRestart_self (.inr ⟨Nat.succ_pos i, t, hat, ht⟩)
      by_cases hu : u.kind.startsDeclaration = true
      · have hskip : skip (t :: u :: more) = 1 := by simp [skip, ht, hu]
        rw [hskip]
        refine firstRestart_self (.inl fun v hv => .inr ?_)
        cases hat'.symm.trans hv
        exact hu
      · rw [skip_cons ht (by simpa using hu), ← Nat.add_assoc]
        refine (ih hnext).of_succ ?_
        rintro (hend | ⟨-, v, hv, hsemi⟩)
        · rcases hend u hat' with hkind | hstart
          · exact heof hkind
          · exact hu hstart
        · cases hat.symm.trans hv
          exact ht hsemi

/-! ### The reading of one declaration -/

namespace Reading

variable {α β : Type}

theorem andThen_ok {r : Reading α} {next : α → Nat → Reading β} {b : β}
    (h : (r.andThen next).outcome = .ok b) :
    ∃ a, r.outcome = .ok a ∧ (next a r.used).outcome = .ok b ∧
      (r.andThen next).used = r.used + (next a r.used).used := by
  obtain ⟨outcome, n, reports⟩ := r
  cases outcome with
  | error e => cases h
  | ok a => exact ⟨a, rfl, h, rfl⟩

theorem expect_ok {last : Nat} {kind : Token.Kind} {what : Expectation} {ts : List Token}
    {t : Token} (h : (expect last kind what ts).outcome = .ok t) :
    (expect last kind what ts).used = 1 := by
  cases ts with
  | nil => cases h
  | cons u more =>
      simp only [expect] at h ⊢
      split
      · rfl
      · rename_i hne
        rw [if_neg hne] at h
        cases h

end Reading

namespace Stmt

variable {last : Nat} {t : Token} {ts : List Token}

theorem readClosed_pos {what : Expectation} {build : Expr → Stmt} {stmt : Stmt}
    (h : (readClosed last what build ts).outcome = .ok stmt) :
    0 < (readClosed last what build ts).used := by
  obtain ⟨expr, -, hclose, hused⟩ := andThen_ok h
  obtain ⟨semicolon, hsemi, -, hused'⟩ := andThen_ok hclose
  have hone := expect_ok hsemi
  have htotal : (readClosed last what build ts).used = _ := hused
  omega

theorem readSimple_pos {stmt : Stmt} :
    (readSimple last t ts).outcome = .ok stmt → 0 < (readSimple last t ts).used := by
  unfold readSimple
  split
  · intro _
    simp only [Reading.behind]
    omega
  · intro _
    simp only [Reading.behind]
    omega
  · exact readClosed_pos

/-- A statement that is no block and cannot be read has taken no semicolon. -/
theorem ne_semicolon_of_error {e : SyntaxError} (h : (readSimple last t ts).outcome = .error e)
    {m : Nat} (hm : m < (readSimple last t ts).used) {u : Token} (hu : (t :: ts)[m]? = some u) :
    u.kind ≠ .semicolon := by
  intro hsemi
  obtain ⟨hlt, hat⟩ := List.getElem?_eq_some_iff.mp hu
  have hsplit : t :: ts = (t :: ts).take m ++ u :: (t :: ts).drop (m + 1) := by
    rw [← hat, ← List.drop_eq_getElem_cons hlt, List.take_append_drop]
  have hcloses : Closes ((t :: ts).take m) (readSimple last t ts) (readSimple last t ts) :=
    readSimple_closes hsemi hsplit hsplit
  have hstop := hcloses.2 e h
  rw [List.length_take] at hstop
  omega

end Stmt

namespace Body

variable {last s : Nat} {nested : Bool} {t : Token} {ts rest : List Token} {e : SyntaxError}

/-- The reading of the declaration that starts with `t`, before anything is skipped. -/
def attempt (last : Nat) (t : Token) (ts : List Token) : Reading Stmt :=
  if t.kind = .leftBrace then close last (read last true ts) ts else Stmt.readSimple last t ts

theorem first_eq_recover (last : Nat) (t : Token) (ts : List Token) :
    first last t ts = (attempt last t ts).recover (t :: ts) := by
  unfold first attempt
  split
  · rfl
  · rfl

theorem attempt_pos {stmt : Stmt} (h : (attempt last t ts).outcome = .ok stmt) :
    0 < (attempt last t ts).used := by
  unfold attempt at h ⊢
  split at h
  · rename_i ht
    rw [if_pos ht]
    simp only [close]
    omega
  · rename_i ht
    rw [if_neg ht]
    exact Stmt.readSimple_pos h

/-- Reading a declaration moves on, whether it is found or given up. -/
theorem first_pos (last : Nat) (t : Token) (ts : List Token) : 0 < (first last t ts).used := by
  rw [first_eq_recover]
  cases h : (attempt last t ts).outcome with
  | ok stmt =>
      simp only [recover, h]
      exact attempt_pos h
  | error e =>
      simp only [recover, h]
      cases hused : (attempt last t ts).used with
      | zero =>
          have hskip := skip_pos t ts
          simpa using hskip
      | succ n => omega

/-- What follows the declaration that starts at a place. -/
theorem drop_behind_first (last : Nat) (hfront : ts.drop s = t :: rest) :
    ts.drop (s + (first last t rest).used) = rest.drop ((first last t rest).used - 1) := by
  obtain ⟨n, hn⟩ := Nat.exists_eq_add_of_lt (first_pos last t rest)
  rw [← List.drop_drop, hfront, hn]
  simp

/-- The reading of a body at a place where a declaration starts. -/
theorem read_at (last : Nat) (hfront : ts.drop s = t :: rest)
    (hopen : ¬ (nested && t.kind == .rightBrace) = true) :
    read last nested (ts.drop s) =
      (first last t rest).append (read last nested (ts.drop (s + (first last t rest).used))) := by
  rw [drop_behind_first last hfront, hfront, read_cons, if_neg hopen]

/-- A body is read up to the end of the tokens or, inside a block, up to a closing brace. -/
theorem read_ends (last : Nat) (nested : Bool) (ts : List Token) :
    Ends nested (ts.drop (read last nested ts).used) := by
  induction hlength : ts.length using Nat.strongRecOn generalizing ts with
  | _ n ih =>
      cases ts with
      | nil =>
          rw [read]
          exact .inl rfl
      | cons t ts =>
          by_cases hclose : (nested && t.kind == .rightBrace) = true
          · rw [read_cons, if_pos hclose]
            simp only [Bool.and_eq_true, beq_iff_eq] at hclose
            exact .inr ⟨hclose.1, t, ts, rfl, hclose.2⟩
          · have hread := read_at last (List.drop_zero (l := t :: ts)) hclose
            rw [List.drop_zero, Nat.zero_add] at hread
            have hpos := first_pos last t ts
            have hshorter : ((t :: ts).drop (first last t ts).used).length < n := by
              rw [List.length_drop, hlength]
              rw [List.length_cons] at hlength
              omega
            rw [hread]
            simp only [append]
            rw [← List.drop_drop]
            exact ih _ hshorter _ rfl

/-- A block that cannot be read has taken all tokens. -/
theorem length_le_of_error (ht : t.kind = .leftBrace)
    (h : (attempt last t ts).outcome = .error e) :
    (t :: ts).length ≤ (attempt last t ts).used := by
  unfold attempt at h ⊢
  rw [if_pos ht] at h ⊢
  rcases read_ends last true ts with hnil | ⟨-, r, others, hr, hkind⟩
  · have hlength := List.drop_eq_nil_iff.mp hnil
    simp only [close, List.length_cons]
    omega
  · simp [close, hr, expect, hkind, done, Except.map] at h

/-- A declaration that cannot be read, and has not taken all tokens, has taken no
semicolon. -/
theorem ne_semicolon_of_error {k m : Nat} {reports : List SyntaxError} {u : Token}
    (h : attempt last t ts = ⟨.error e, k, reports⟩) (hmid : k < (t :: ts).length)
    (hm : m < k) (hu : (t :: ts)[m]? = some u) : u.kind ≠ .semicolon := by
  by_cases ht : t.kind = .leftBrace
  · have hall := length_le_of_error ht (congrArg Reading.outcome h)
    rw [h] at hall
    have hall : (t :: ts).length ≤ k := hall
    omega
  · rw [attempt, if_neg ht] at h
    refine Stmt.ne_semicolon_of_error (congrArg Reading.outcome h) ?_ hu
    rw [h]
    exact hm

end Body

/-! ### Reading on -/

/-- Reading the program comes to the place `s`, at its top level or, if `nested`, inside a
block: at the start, inside a block that starts there, and behind each declaration, found or
given up. -/
inductive Reaches (tokens : List Token) : Bool → Nat → Prop
  | start : Reaches tokens false 0
  | inside {nested : Bool} {s : Nat} {t : Token} {rest : List Token} :
      Reaches tokens nested s → (programOf tokens).drop s = t :: rest →
      ¬ (nested && t.kind == .rightBrace) = true → t.kind = .leftBrace →
      Reaches tokens true (s + 1)
  | next {nested : Bool} {s : Nat} {t : Token} {rest : List Token} :
      Reaches tokens nested s → (programOf tokens).drop s = t :: rest →
      ¬ (nested && t.kind == .rightBrace) = true →
      Reaches tokens nested (s + (Body.first (endLine tokens) t rest).used)

/-- What is reported from a place on that reading comes to is reported of the program. -/
theorem Reaches.reports_infix {nested : Bool} (h : Reaches tokens nested s) :
    (Body.read (endLine tokens) nested ((programOf tokens).drop s)).reports <:+:
      (parse tokens).reports := by
  induction h with
  | start =>
      rw [parse_eq, List.drop_zero]
      exact List.infix_rfl
  | @inside nested s t rest _ hfront hopen hbrace ih =>
      have hinner : (programOf tokens).drop (s + 1) = rest := by
        rw [← List.drop_drop, hfront, List.drop_succ_cons, List.drop_zero]
      rw [Body.read_at _ hfront hopen] at ih
      rw [hinner]
      refine List.IsInfix.trans ?_ ih
      refine List.IsInfix.trans ?_ (List.prefix_append _ _).isInfix
      rw [Body.first, if_pos hbrace]
      unfold Reading.recover
      split
      · exact List.infix_rfl
      · exact (List.prefix_append _ _).isInfix
  | @next nested s t rest _ hfront hopen ih =>
      rw [Body.read_at _ hfront hopen] at ih
      exact List.IsInfix.trans (List.suffix_append _ _).isInfix ih

/-- Where a declaration was given up behind its first token, no semicolon stands in front;
so reading may start afresh there only with a declaration. -/
theorem restart_iff_of_fail {k : Nat} {t u : Token} {rest : List Token} {e : SyntaxError}
    {reports : List SyntaxError} (hfront : (programOf tokens).drop s = t :: rest)
    (hfail : Body.attempt (endLine tokens) t rest = ⟨.error e, k, reports⟩)
    (hmid : s + k < (programOf tokens).length) (hpos : 0 < k) (hat : tokens[s + k]? = some u)
    (heof : u.kind ≠ .eof) :
    Restart tokens (s + k) ↔ u.kind.startsDeclaration = true := by
  constructor
  · rintro (hend | ⟨-, v, hv, hsemi⟩)
    · exact (hend u hat).resolve_left heof
    · obtain ⟨w, ws, hbefore⟩ :=
        exists_drop (show s + (k - 1) < (programOf tokens).length by omega)
      obtain ⟨hw, -⟩ := getElem?_of_drop hbefore
      have hplace : s + k - 1 = s + (k - 1) := by omega
      rw [hplace] at hv
      obtain rfl : w = v := Option.some.inj (hw.symm.trans hv)
      have htaken : (t :: rest)[k - 1]? = some w := by
        rw [← List.drop_drop, hfront] at hbefore
        rw [← List.head?_drop, hbefore, List.head?_cons]
      have hlength : k < (t :: rest).length := by
        rw [← hfront, List.length_drop]
        omega
      exact absurd hsemi (Body.ne_semicolon_of_error hfail hlength (by omega) htaken)
  · intro hu
    refine .inl fun v hv => .inr ?_
    obtain rfl : u = v := Option.some.inj (hat.symm.trans hv)
    exact hu

/-- **Resumption.**  Let a declaration of the program start with `t` at the place `s`, and
let its reading stop with an error at the place `s + k`, before the end of the program.
The error is reported, no statement is kept, and reading goes on at the first place behind
`s + k` where it may start afresh.  This is the first such place from `s + k` on that lies
behind `s` exactly if the reading took no token or stopped at one that starts no
declaration. -/
theorem parse_resumes {nested : Bool} {s k : Nat} {t : Token} {rest : List Token}
    {e : SyntaxError} {reports : List SyntaxError} (hreach : Reaches tokens nested s)
    (hfront : (programOf tokens).drop s = t :: rest)
    (hopen : ¬ (nested && t.kind == .rightBrace) = true)
    (hfail : Body.attempt (endLine tokens) t rest = ⟨.error e, k, reports⟩)
    (hmid : s + k < (programOf tokens).length) :
    e ∈ (parse tokens).reports ∧
    ∃ j, FirstRestart tokens (s + k + 1) j ∧ Reaches tokens nested j ∧
      Body.read (endLine tokens) nested ((programOf tokens).drop s) =
        Body.append ⟨[], j - s, reports ++ [e]⟩
          (Body.read (endLine tokens) nested ((programOf tokens).drop j)) ∧
      (FirstRestart tokens (max (s + k) (s + 1)) j ↔
        k = 0 ∨ ∃ u ∈ tokens[s + k]?, u.kind.startsDeclaration = false) := by
  obtain ⟨u, more, hstop⟩ := exists_drop hmid
  obtain ⟨hat, heof⟩ := getElem?_of_drop hstop
  have hskipped : (t :: rest).drop k = u :: more := by
    rw [← hfront, List.drop_drop, hstop]
  have hfirst : Body.first (endLine tokens) t rest =
      ⟨[], k + skip (u :: more), reports ++ [e]⟩ := by
    rw [Body.first_eq_recover, hfail]
    simp only [recover, hskipped]
  have hread := Body.read_at (endLine tokens) hfront hopen
  have hnext := Reaches.next hreach hfront hopen
  have hrestart : FirstRestart tokens (s + k + 1) (s + (k + skip (u :: more))) := by
    rw [← Nat.add_assoc s k (skip (u :: more))]
    exact firstRestart_skip hstop
  rw [hfirst] at hread hnext
  refine ⟨?_, s + (k + skip (u :: more)), hrestart, hnext, ?_, ?_⟩
  · apply hreach.reports_infix.subset
    rw [hread]
    simp [Body.append]
  · rw [hread, Nat.add_sub_cancel_left]
  · rw [firstRestart_max_iff hrestart, hat]
    by_cases hk : k = 0
    · simp [hk]
    · have hpos : 0 < k := Nat.pos_of_ne_zero hk
      rw [restart_iff_of_fail hfront hfail hmid hpos hat heof]
      simp

/-- `{ print 1 2 int y ; }`, with the first statement broken. -/
def brokenInBlock : List Token :=
  [⟨.leftBrace, "\x7b", 1, none⟩, ⟨.printWord, "print", 1, none⟩,
    ⟨.number, "1", 1, some (.int 1)⟩, ⟨.number, "2", 1, some (.int 2)⟩,
    ⟨.type .int, "int", 2, none⟩, ⟨.identifier, "y", 2, none⟩, ⟨.semicolon, ";", 2, none⟩,
    ⟨.rightBrace, "\x7d", 2, none⟩, ⟨.eof, "", 2, none⟩]

/-- Inside a block, reading stops at `2`, which starts no declaration, and goes on at
`int`. -/
theorem parse_resumes_inside :
    Reaches brokenInBlock true 1 ∧
      Body.attempt 2 ⟨.printWord, "print", 1, none⟩ (brokenInBlock.dropLast.drop 2) =
        ⟨.error ⟨1, .atLexeme "2", .expected .printEnd⟩, 2, []⟩ ∧
      ⟨1, .atLexeme "2", .expected .printEnd⟩ ∈ (parse brokenInBlock).reports ∧
      ∃ j, FirstRestart brokenInBlock 4 j ∧ Reaches brokenInBlock true j ∧
        Body.read 2 true ((programOf brokenInBlock).drop 1) =
          Body.append ⟨[], j - 1, [⟨1, .atLexeme "2", .expected .printEnd⟩]⟩
            (Body.read 2 true ((programOf brokenInBlock).drop j)) ∧
        (FirstRestart brokenInBlock 3 j ↔
          2 = 0 ∨ ∃ u ∈ brokenInBlock[3]?, u.kind.startsDeclaration = false) := by
  have hreach : Reaches brokenInBlock true 1 :=
    .inside .start rfl (by decide) rfl
  have hfail : Body.attempt 2 ⟨.printWord, "print", 1, none⟩ (brokenInBlock.dropLast.drop 2) =
      ⟨.error ⟨1, .atLexeme "2", .expected .printEnd⟩, 2, []⟩ := by cbv
  exact ⟨hreach, hfail, parse_resumes hreach rfl (by decide) hfail (by decide)⟩

/-- `print 1 int y = 2 ;`, without the semicolon behind the first statement. -/
def unclosedPrint : List Token :=
  [⟨.printWord, "print", 1, none⟩, ⟨.number, "1", 1, some (.int 1)⟩,
    ⟨.type .int, "int", 2, none⟩, ⟨.identifier, "y", 2, none⟩, ⟨.equal, "=", 2, none⟩,
    ⟨.number, "2", 2, some (.int 2)⟩, ⟨.semicolon, ";", 2, none⟩, ⟨.eof, "", 2, none⟩]

/-- The first statement is given up at `int`, where reading may start afresh and would find
a declaration; but that token is passed over, and the declaration is lost. -/
theorem parse_hides_declaration :
    Body.attempt 2 ⟨.printWord, "print", 1, none⟩ (unclosedPrint.dropLast.drop 1) =
        ⟨.error ⟨2, .atLexeme "int", .expected .printEnd⟩, 2, []⟩ ∧
      FirstRestart unclosedPrint (max 2 1) 2 ∧
      parse (unclosedPrint.drop 2) =
        ⟨[.declare .int ⟨.identifier, "y", 2, none⟩ (some (.literal (.int 2)))], []⟩ ∧
      parse unclosedPrint = ⟨[], [⟨2, .atLexeme "int", .expected .printEnd⟩]⟩ := by
  have hrestart : Restart unclosedPrint 2 := by
    refine .inl fun t ht => .inr ?_
    cases ht
    rfl
  have hfail : Body.attempt 2 ⟨.printWord, "print", 1, none⟩ (unclosedPrint.dropLast.drop 1) =
      ⟨.error ⟨2, .atLexeme "int", .expected .printEnd⟩, 2, []⟩ := by cbv
  have hbehind : parse (unclosedPrint.drop 2) =
      ⟨[.declare .int ⟨.identifier, "y", 2, none⟩ (some (.literal (.int 2)))], []⟩ := by cbv
  have hparse : parse unclosedPrint =
      ⟨[], [⟨2, .atLexeme "int", .expected .printEnd⟩]⟩ := by cbv
  exact ⟨hfail, firstRestart_self hrestart, hbehind, hparse⟩

end SlotScript
