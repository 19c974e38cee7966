import Mathlib.Data.List.Chain
import SlotScript.Proofs.Walks

/-! # Reading moves on

The places that a reader comes to follow each other without a way back: from each to the
next it stays or takes one token (`Moves`).  A walk is `Onward` if this holds of its places
and it ends among its tokens.  What takes one token at most is `Onward`, and so is one such
walk behind another; so every goal, every statement and every body is, whatever the tokens
are.

A program is therefore read from its first place to its end mark, each declaration ending
behind its start (`parse_advances`). -/

namespace SlotScript

/-- A step of a reader: it stays at its place, or takes one token. -/
def Moves (p q : Nat) : Prop := q = p ∨ q = p + 1

/-- Some places on the way to the place `used` of `ts`, without a way back and without
leaving the tokens. -/
structure Onward (ts : List Token) (places : List Nat) (used : Nat) : Prop where
  chain : (0 :: (places ++ [used])).IsChain Moves
  le : used ≤ ts.length

namespace Onward

variable {ts : List Token} {places others : List Nat} {n m : Nat}

theorem stay (ts : List Token) : Onward ts [] 0 := by
  refine ⟨?_, Nat.zero_le _⟩
  rw [List.nil_append, List.isChain_pair]
  exact .inl rfl

theorem take (t : Token) (ts : List Token) : Onward (t :: ts) [] 1 := by
  refine ⟨?_, Nat.succ_pos _⟩
  rw [List.nil_append, List.isChain_pair]
  exact .inr rfl

/-- Places, counted from a place further on. -/
theorem chain_from (h : Onward ts places m) (n : Nat) :
    (n :: (places.map (n + ·) ++ [n + m])).IsChain Moves := by
  have hmap := List.isChain_map_of_isChain (S := Moves) (n + ·) (fun p q hmoves => ?_) h.chain
  · simpa using hmap
  · rcases hmoves with rfl | rfl
    · exact .inl rfl
    · exact .inr rfl

/-- One way behind another. -/
theorem trans (h : Onward ts places n) (hnext : Onward (ts.drop n) others m) :
    Onward ts (places ++ n :: others.map (n + ·)) (n + m) := by
  refine ⟨?_, ?_⟩
  · rw [List.append_assoc, List.cons_append, List.isChain_cons_split]
    exact ⟨h.chain, hnext.chain_from n⟩
  · have hn := h.le
    have hm := hnext.le
    rw [List.length_drop] at hm
    omega

theorem behind (t : Token) (h : Onward ts places n) :
    Onward (t :: ts) (1 :: places.map (1 + ·)) (1 + n) :=
  (take t ts).trans h

/-- No place lies behind the last one. -/
theorem le_of_mem (h : Onward ts places n) {p : Nat} (hp : p ∈ 0 :: (places ++ [n])) : p ≤ n := by
  have hle : (0 :: (places ++ [n])).IsChain (· ≤ ·) := by
    refine h.chain.imp fun p q hmoves => ?_
    rcases hmoves with rfl | rfl <;> omega
  -- `≤` is transitive, so it relates every place to the last one.
  have hpairs := List.isChain_iff_pairwise.mp hle
  rw [← List.cons_append] at hp hpairs
  rcases List.mem_append.mp hp with hp | hp
  · exact (List.pairwise_append.mp hpairs).2.2 p hp n (List.mem_singleton_self n)
  · exact Nat.le_of_eq (List.mem_singleton.mp hp)

end Onward

/-! ### Expressions -/

namespace Walk

variable {α β : Type} {w : Walk α} {ts : List Token} {next : α → Nat → Walk β}

/-- The walk leads on through `ts`. -/
def Onward (w : Walk α) (ts : List Token) : Prop :=
  SlotScript.Onward ts w.places w.reading.used

theorem onward_stay {r : Reading α} (h : r.used = 0) (ts : List Token) :
    (direct r).Onward ts := by
  unfold Onward
  rw [direct_reading, h]
  exact .stay ts

theorem onward_take {r : Reading α} (h : r.used = 1) (t : Token) (ts : List Token) :
    (direct r).Onward (t :: ts) := by
  unfold Onward
  rw [direct_reading, h]
  exact .take t ts

theorem onward_expect (last : Nat) (kind : Token.Kind) (what : Expectation) (ts : List Token) :
    (expect last kind what ts).Onward ts := by
  cases ts with
  | nil => exact onward_stay rfl []
  | cons t ts =>
      rw [expect, Reading.expect]
      split
      · exact onward_take rfl t ts
      · exact onward_stay rfl (t :: ts)

theorem Onward.behind (t : Token) (h : w.Onward ts) : w.behind.Onward (t :: ts) :=
  SlotScript.Onward.behind t h

theorem Onward.andThen (h : w.Onward ts)
    (hnext : ∀ a, (next a w.reading.used).Onward (ts.drop w.reading.used)) :
    (w.andThen next).Onward ts := by
  obtain ⟨⟨outcome, n, reports⟩, places⟩ := w
  cases outcome with
  | error e => exact h
  | ok a => exact SlotScript.Onward.trans h (hnext a)

/-- Going on behind a token that was taken before. -/
theorem Onward.behindThen (t : Token) (h : w.Onward ts)
    (hnext : ∀ a n, (next a n).Onward (ts.drop (n - 1))) :
    (w.behind.andThen next).Onward (t :: ts) := by
  refine (h.behind t).andThen fun a => ?_
  have hdrop : (t :: ts).drop (1 + w.reading.used) = ts.drop (1 + w.reading.used - 1) := by
    rw [Nat.add_comm, List.drop_succ_cons, Nat.add_sub_cancel]
  rw [behind_reading, Reading.behind, hdrop]
  exact hnext a _

/-- What was found is built into something else, without a further token. -/
theorem Onward.map {found : α → Reading β} (h : w.Onward ts)
    (hfound : ∀ a, (found a).used = 0) : (w.andThen fun a _ => direct (found a)).Onward ts :=
  h.andThen fun a => onward_stay (hfound a) _

/-- The token that ends what is built. -/
theorem onward_closing (last : Nat) (kind : Token.Kind) (what : Expectation) (ts : List Token)
    (a : α) : ((expect last kind what ts).andThen fun _ _ => direct (.done a 0)).Onward ts :=
  (onward_expect last kind what ts).map fun _ => rfl

end Walk

namespace Goal

theorem assignTo_used (left : Expr) (op : Token) (value : Expr) :
    (assignTo left op value).used = 0 := by
  unfold assignTo
  split <;> rfl

theorem stepOf_used (op : Token) (operand : Expr) (isPrefix : Bool) (n : Nat) :
    (stepOf op operand isPrefix n).used = n := by
  unfold stepOf
  split <;> rfl

theorem literalOf_used (t : Token) : (literalOf t).used = 1 := by
  unfold literalOf
  split <;> rfl

theorem onward_stepOrStop (operand : Expr) (ts : List Token) :
    (Walk.direct (stepOrStop operand ts)).Onward ts := by
  cases ts with
  | nil => exact Walk.onward_stay rfl []
  | cons op rest =>
      rw [stepOrStop]
      split
      · exact Walk.onward_take (stepOf_used op operand false 1) op rest
      · exact Walk.onward_stay rfl (op :: rest)

/-- Reading an expression leads on through the tokens. -/
theorem walk_onward (last : Nat) (goal : Goal) (ts : List Token) :
    (walk last goal ts).Onward ts := by
  -- Each clause is one of the combinators, applied to walks on fewer tokens or lower goals.
  fun_induction walk last goal ts with
  | case1 ts ih ihValue =>
      refine ih.andThen fun left => ?_
      split
      · rename_i op rest h
        rw [h]
        split
        · exact ((ihValue _ op rest h).behind op).map fun value => assignTo_used left op value
        · exact Walk.onward_stay rfl _
      · exact Walk.onward_stay rfl _
  | case2 ts ih => exact ih
  | case3 ts l tighter ih ihMore => exact ih.andThen fun left => ihMore left _
  | case4 l tighter left op rest hop ih ihMore =>
      exact ih.behindThen op fun right n => ihMore right n
  | case5 | case6 => exact Walk.onward_stay rfl _
  | case7 op rest hop ih => exact (ih.behind op).map fun operand => stepOf_used op operand true 0
  | case8 op rest hstep hop ih => exact (ih.behind op).map fun _ => rfl
  | case9 op rest hstep hunary ih => exact ih
  | case10 ih => exact ih
  | case11 ts ih => exact ih.andThen fun operand => onward_stepOrStop operand _
  | case12 t rest | case13 t rest | case14 t rest | case18 t rest =>
      exact Walk.onward_take rfl t rest
  | case15 t rest | case16 t rest | case17 t rest =>
      exact Walk.onward_take (literalOf_used t) t rest
  | case19 t rest hk ih => exact (ih.behind t).map fun _ => rfl
  | case20 t rest hk ih =>
      exact ih.behindThen t fun inner n => Walk.onward_closing _ _ _ _ _
  | case21 | case22 => exact Walk.onward_stay rfl _

end Goal

/-! ### Statements -/

namespace Stmt

theorem walkInitial_onward (last : Nat) (type : Ty) (name : Token) (ts : List Token) :
    (walkInitial last type name ts).Onward ts := by
  cases ts with
  | nil => exact Walk.onward_stay rfl _
  | cons t rest =>
      rw [walkInitial]
      split
      · exact (Goal.walk_onward _ _ _).behindThen t fun _ _ => Walk.onward_closing _ _ _ _ _
      · exact Walk.onward_closing _ _ _ _ _

theorem walkDeclare_onward (last : Nat) (type : Ty) (ts : List Token) :
    (walkDeclare last type ts).Onward ts :=
  (Walk.onward_expect _ _ _ _).andThen fun name => walkInitial_onward last type name _

theorem walkClosed_onward (last : Nat) (what : Expectation) (build : Expr → Stmt)
    (ts : List Token) : (walkClosed last what build ts).Onward ts :=
  (Goal.walk_onward _ _ _).andThen fun _ => Walk.onward_closing _ _ _ _ _

theorem walkSimple_onward (last : Nat) (t : Token) (ts : List Token) :
    (walkSimple last t ts).Onward (t :: ts) := by
  unfold walkSimple
  split
  · exact (walkDeclare_onward _ _ _).behind t
  · exact (walkClosed_onward _ _ _ _).behind t
  · exact walkClosed_onward _ _ _ _

end Stmt

/-! ### Programs -/

theorem skip_onward (ts : List Token) : Onward ts (skipPlaces ts) (skip ts) := by
  fun_induction skip ts with
  | case1 => exact .stay []
  | case2 t ts hsemi =>
      rw [skipPlaces.eq_def]
      simp only [if_pos hsemi]
      exact .take t ts
  | case3 t hsemi u rest hstart =>
      simp only [skipPlaces, if_neg hsemi, if_pos hstart]
      exact .take t (u :: rest)
  | case4 t hsemi u rest hstart ih =>
      rw [skipPlaces]
      simp only [if_neg hsemi, if_neg hstart]
      exact ih.behind t
  | case5 t hsemi =>
      simp only [skipPlaces, if_neg hsemi]
      exact .take t []

/-- What is skipped after an error leads on. -/
theorem Walk.Onward.recover {w : Walk Stmt} {ts : List Token} (h : w.Onward ts) :
    SlotScript.Onward ts (w.recover ts).places (w.recover ts).body.used := by
  obtain ⟨⟨outcome, n, reports⟩, places⟩ := w
  cases outcome with
  | ok s => exact h
  | error e => exact SlotScript.Onward.trans h (skip_onward (ts.drop n))

namespace Route

variable {ts : List Token}

/-- The route leads on through `ts`. -/
def Onward (r : Route) (ts : List Token) : Prop := SlotScript.Onward ts r.places r.body.used

theorem onward_empty (ts : List Token) : empty.Onward ts := .stay ts

theorem Onward.append {a b : Route} (ha : a.Onward ts) (hb : b.Onward (ts.drop a.body.used)) :
    (a.append b).Onward ts :=
  SlotScript.Onward.trans ha hb

/-- A block leads on if what it holds does. -/
theorem Onward.close {inner : Route} (last : Nat) (t : Token) (h : inner.Onward ts) :
    (inner.close last ts).Onward (t :: ts) := by
  have hbrace : SlotScript.Onward ((t :: ts).drop (1 + inner.body.used)) []
      (Reading.expect last .rightBrace .blockEnd (ts.drop inner.body.used)).used := by
    rw [Nat.add_comm, List.drop_succ_cons]
    exact Walk.onward_expect _ _ _ _
  exact (SlotScript.Onward.behind t h).trans hbrace

end Route

namespace Body

variable {last s : Nat} {nested : Bool} {t : Token} {ts rest : List Token}

theorem walkFirst_onward (t : Token) (h : (walk last true ts).Onward ts) :
    (walkFirst last t ts).Onward (t :: ts) := by
  unfold walkFirst
  split
  · exact (h.close last t).recover
  · exact (Stmt.walkSimple_onward last t ts).recover

/-- The walk through a body at a place where a declaration starts. -/
theorem walk_at (last : Nat) (hfront : ts.drop s = t :: rest)
    (hopen : ¬ (nested && t.kind == .rightBrace) = true) :
    walk last nested (ts.drop s) = (walkFirst last t rest).append
      (walk last nested (ts.drop (s + (first last t rest).used))) := by
  rw [drop_behind_first last hfront, hfront, walk_cons, if_neg hopen, walkFirst_body]

/-- Reading a body leads on through the tokens. -/
theorem walk_onward (last : Nat) (nested : Bool) (ts : List Token) :
    (walk last nested ts).Onward ts := by
  induction hlength : ts.length using Nat.strongRecOn generalizing nested ts with
  | _ n ih =>
      cases ts with
      | nil =>
          rw [walk]
          exact Route.onward_empty []
      | cons t ts =>
          by_cases hclose : (nested && t.kind == .rightBrace) = true
          · rw [walk_cons, if_pos hclose]
            exact Route.onward_empty _
          · have hinner : (walk last true ts).Onward ts := by
              refine ih ts.length ?_ true ts rfl
              rw [← hlength, List.length_cons]
              omega
            have hwalk := walk_at last (List.drop_zero (l := t :: ts)) hclose
            rw [List.drop_zero, Nat.zero_add] at hwalk
            rw [hwalk]
            refine (walkFirst_onward t hinner).append ?_
            rw [walkFirst_body]
            refine ih _ ?_ nested _ rfl
            have hpos := first_pos last t ts
            rw [List.length_drop, hlength]
            rw [List.length_cons] at hlength
            omega

/-- A declaration gives a statement, or else a report. -/
theorem first_cases (last : Nat) (t : Token) (ts : List Token) :
    (∃ stmt, (first last t ts).statements = [stmt]) ∨
      (first last t ts).statements = [] ∧ (first last t ts).reports ≠ [] := by
  rw [first_eq_recover]
  cases h : (attempt last t ts).outcome with
  | ok stmt => exact .inl ⟨stmt, by simp [Reading.recover, h]⟩
  | error e => exact .inr ⟨by simp [Reading.recover, h], by simp [Reading.recover, h]⟩

end Body

/-! ### The end of a program -/

/-- The tokens with an end mark behind them, if they have none there. -/
def closed (tokens : List Token) : List Token :=
  if tokens.getLast?.any fun t => t.kind == .eof then tokens
  else tokens ++ [⟨.eof, "", (tokens.getLast?.map (·.line)).getD 1, none⟩]

variable {tokens : List Token} {nested : Bool} {s : Nat}

theorem programOf_isPrefix (tokens : List Token) : programOf tokens <+: tokens :=
  List.takeWhile_prefix _

theorem programOf_closed (tokens : List Token) : programOf (closed tokens) = programOf tokens := by
  unfold closed
  split
  · rfl
  · unfold programOf
    rw [List.takeWhile_append]
    split
    · rename_i hall
      have hself := (programOf_isPrefix tokens).eq_of_length hall
      unfold programOf at hself
      rw [hself]
      simp
    · rfl

theorem endLine_closed (tokens : List Token) : endLine (closed tokens) = endLine tokens := by
  unfold closed
  split
  · rfl
  · unfold endLine
    rw [List.find?_append]
    cases tokens.find? fun t => t.kind == .eof with
    | some t => rfl
    | none => rfl

theorem parse_closed (tokens : List Token) : parse (closed tokens) = parse tokens := by
  rw [parse_eq, parse_eq, programOf_closed, endLine_closed]

theorem exists_eof_closed (tokens : List Token) : ∃ t ∈ closed tokens, t.kind = .eof := by
  unfold closed
  split
  · rename_i h
    obtain ⟨t, hlast, hk⟩ := Option.any_eq_true _ _ |>.mp h
    exact ⟨t, List.mem_of_getLast? hlast, by simpa using hk⟩
  · exact ⟨_, List.mem_append_right _ (List.mem_singleton_self _), rfl⟩

/-- The program ends at the first end mark of the closed tokens. -/
theorem eof_at_length (tokens : List Token) :
    ∃ t, (closed tokens)[(programOf tokens).length]? = some t ∧ t.kind = .eof := by
  obtain ⟨t, hmem, hk⟩ := exists_eof_closed tokens
  rw [← programOf_closed]
  have hlt : (programOf (closed tokens)).length < (closed tokens).length := by
    have hstart := programOf_isPrefix (closed tokens)
    refine Nat.lt_of_le_of_ne hstart.length_le fun hall => ?_
    rw [← hstart.eq_of_length hall] at hmem
    have hne := List.all_eq_true.mp List.all_takeWhile t hmem
    simp [hk] at hne
  exact ⟨_, List.getElem?_eq_getElem hlt, eof_of_length (List.getElem?_eq_getElem hlt)⟩

theorem ne_eof_of_lt (h : s < (programOf tokens).length) :
    ∃ t, (closed tokens)[s]? = some t ∧ t.kind ≠ .eof := by
  rw [← programOf_closed] at h
  obtain ⟨t, ts, hdrop⟩ := exists_drop h
  exact ⟨t, getElem?_of_drop hdrop⟩

/-! ### The history of a reading -/

/-- The places of a way that starts at `s`, from its start to its end. -/
def trail (s : Nat) (places : List Nat) (used : Nat) : List Nat :=
  s :: (places.map (s + ·) ++ [s + used])

theorem trail_trans (s : Nat) (places others : List Nat) (n m : Nat) :
    trail s (places ++ n :: others.map (n + ·)) (n + m) =
      s :: places.map (s + ·) ++ trail (s + n) others m := by
  simp [trail, Function.comp_def, Nat.add_assoc]

theorem trail_second_part (s : Nat) (places others : List Nat) (n m : Nat) :
    trail (s + n) others m <:+ trail s (places ++ n :: others.map (n + ·)) (n + m) := by
  rw [trail_trans]
  exact List.suffix_append _ _

theorem trail_first_part (s : Nat) (places others : List Nat) (n m : Nat) :
    trail s places n <+: trail s (places ++ n :: others.map (n + ·)) (n + m) := by
  rw [trail_trans]
  exact ⟨others.map (s + n + ·) ++ [s + n + m], by simp [trail]⟩

/-- A statement's way is the start of the way that recovers from it. -/
theorem Walk.trail_recover (w : Walk Stmt) (s : Nat) (ts : List Token) :
    trail s w.places w.reading.used <+:
      trail s (w.recover ts).places (w.recover ts).body.used := by
  obtain ⟨⟨outcome, n, reports⟩, places⟩ := w
  cases outcome with
  | ok stmt => exact List.prefix_rfl
  | error e => exact trail_first_part s places _ n _

namespace Route

/-- The places of a route that starts at `s`. -/
def trail (r : Route) (s : Nat) : List Nat := SlotScript.trail s r.places r.body.used

theorem trail_of_append_left (a b : Route) (s : Nat) : a.trail s <+: (a.append b).trail s :=
  trail_first_part s a.places b.places a.body.used b.body.used

theorem trail_of_append_right (a b : Route) (s : Nat) :
    b.trail (s + a.body.used) <:+ (a.append b).trail s :=
  trail_second_part s a.places b.places a.body.used b.body.used

/-- The way through a block leads through what it holds. -/
theorem trail_of_close (inner : Route) (last s : Nat) (t : Token) (ts : List Token) :
    inner.trail (s + 1) <:+: (((inner.close last ts).recover (t :: ts)).trail s) := by
  refine List.IsInfix.trans ?_ (Walk.trail_recover _ s _).isInfix
  -- Behind the opening brace, and before the closing one.
  have hopened := trail_second_part s [] inner.places 1 inner.body.used
  exact hopened.isInfix.trans (trail_first_part s _ [] (1 + inner.body.used) _).isInfix

end Route

/-- The walk through a program. -/
def route (tokens : List Token) : Route :=
  Body.walk (endLine tokens) false (programOf tokens)

/-- The places that the reader of a program comes to, from first to last. -/
def history (tokens : List Token) : List Nat := (route tokens).trail 0

theorem route_onward (tokens : List Token) : (route tokens).Onward (programOf tokens) :=
  Body.walk_onward _ _ _

/-- A program is read to its end. -/
theorem route_used (tokens : List Token) :
    (route tokens).body.used = (programOf tokens).length := by
  have hle := (route_onward tokens).le
  have hends := Body.read_ends (endLine tokens) false (programOf tokens)
  rw [← Body.walk_body] at hends
  rcases hends with hnil | ⟨hnested, -⟩
  · exact Nat.le_antisymm hle (List.drop_eq_nil_iff.mp hnil)
  · cases hnested

theorem history_eq (tokens : List Token) :
    history tokens = 0 :: ((route tokens).places ++ [(programOf tokens).length]) := by
  simp [history, Route.trail, trail, route_used]

/-- What a reader comes to from a place on is a part of the history. -/
theorem Reaches.trail_infix (h : Reaches tokens nested s) :
    (Body.walk (endLine tokens) nested ((programOf tokens).drop s)).trail s <:+:
      history tokens := by
  induction h with
  | start =>
      rw [List.drop_zero]
      exact List.infix_rfl
  | @inside nested s t rest _ hfront hopen hbrace ih =>
      have hinner : (programOf tokens).drop (s + 1) = rest := by
        rw [← List.drop_drop, hfront, List.drop_succ_cons, List.drop_zero]
      rw [Body.walk_at _ hfront hopen] at ih
      rw [hinner]
      refine List.IsInfix.trans ?_ ((Route.trail_of_append_left _ _ s).isInfix.trans ih)
      rw [Body.walkFirst, if_pos hbrace]
      exact Route.trail_of_close _ _ s t rest
  | @next nested s t rest _ hfront hopen ih =>
      rw [Body.walk_at _ hfront hopen] at ih
      have hbehind := Route.trail_of_append_right (Body.walkFirst (endLine tokens) t rest)
        (Body.walk (endLine tokens) nested
          ((programOf tokens).drop (s + (Body.first (endLine tokens) t rest).used))) s
      rw [Body.walkFirst_body] at hbehind
      exact hbehind.isInfix.trans ih

theorem Reaches.mem_history (h : Reaches tokens nested s) : s ∈ history tokens :=
  h.trail_infix.subset List.mem_cons_self

/-- **Progress.**  Whatever the tokens are, a program is read along the places of its
history.  From each place to the next the reader stays or takes one token.  The last place
is that of the first end mark, and all others lie before or at it, so there is a token at
each.  A declaration that is begun before the end mark gives a statement or a report, and
ends further on. -/
theorem parse_advances (tokens : List Token) :
    (route tokens).body.parsed = parse tokens ∧ parse (closed tokens) = parse tokens ∧
    (history tokens).IsChain Moves ∧
    ∃ stop, (history tokens).getLast? = some stop ∧
      (∀ p ∈ history tokens, p ≤ stop ∧ p < (closed tokens).length) ∧
      (∃ t, (closed tokens)[stop]? = some t ∧ t.kind = .eof) ∧
      (∀ p < stop, ∃ t, (closed tokens)[p]? = some t ∧ t.kind ≠ .eof) ∧
      ∀ (nested : Bool) (s : Nat) (t : Token) (rest : List Token),
        Reaches tokens nested s → (programOf tokens).drop s = t :: rest →
        ¬ (nested && t.kind == .rightBrace) = true →
        let first := Body.first (endLine tokens) t rest
        ((∃ stmt, first.statements = [stmt]) ∨ first.statements = [] ∧ first.reports ≠ []) ∧
          s ∈ history tokens ∧ s + first.used ∈ history tokens ∧ s < s + first.used ∧
          Reaches tokens nested (s + first.used) := by
  have honward := route_onward tokens
  have hchain := honward.chain
  have hbounds := fun p => honward.le_of_mem (p := p)
  rw [route_used, ← history_eq] at hchain
  simp only [route_used, ← history_eq] at hbounds
  have hend := eof_at_length tokens
  refine ⟨?_, parse_closed tokens, hchain, (programOf tokens).length, ?_, fun p hp => ?_, hend,
    fun p hp => ne_eof_of_lt hp, ?_⟩
  · rw [route, Body.walk_body, parse_eq]
  · rw [history_eq, ← List.cons_append, List.getLast?_concat]
  · obtain ⟨t, hat, -⟩ := hend
    have hle := hbounds p hp
    exact ⟨hle, Nat.lt_of_le_of_lt hle (List.getElem?_eq_some_iff.mp hat).1⟩
  · intro nested s t rest hreach hfront hopen
    have hnext := hreach.next hfront hopen
    have hpos := Body.first_pos (endLine tokens) t rest
    exact ⟨Body.first_cases _ _ _, hreach.mem_history, hnext.mem_history, by omega, hnext⟩

/-- `{ } }` and an end mark, with a semicolon behind it. -/
def strayBrace : List Token :=
  [⟨.leftBrace, "\x7b", 1, none⟩, ⟨.rightBrace, "\x7d", 1, none⟩,
    ⟨.rightBrace, "\x7d", 1, none⟩, ⟨.eof, "", 1, none⟩, ⟨.semicolon, ";", 2, none⟩]

/-- The second closing brace starts no statement.  It is reported and passed over, and
reading stops at the end mark behind it. -/
theorem parse_advances_stray :
    history strayBrace = [0, 1, 1, 2, 2, 3, 3] ∧ Reaches strayBrace false 2 ∧
      Body.first 1 ⟨.rightBrace, "\x7d", 1, none⟩ [] =
        ⟨[], 1, [⟨1, .atLexeme "\x7d", .expectedExpression⟩]⟩ ∧
      (history strayBrace).IsChain Moves ∧ 2 ∈ history strayBrace ∧ 3 ∈ history strayBrace ∧
      Reaches strayBrace false 3 := by
  have hhistory : history strayBrace = [0, 1, 1, 2, 2, 3, 3] := by cbv
  have hblock : (Body.first 1 ⟨.leftBrace, "\x7b", 1, none⟩ [⟨.rightBrace, "\x7d", 1, none⟩,
      ⟨.rightBrace, "\x7d", 1, none⟩]).used = 2 := by cbv
  have hbrace : Body.first 1 ⟨.rightBrace, "\x7d", 1, none⟩ [] =
      ⟨[], 1, [⟨1, .atLexeme "\x7d", .expectedExpression⟩]⟩ := by cbv
  have hreach : Reaches strayBrace false 2 := by
    have hnext : Reaches strayBrace false (0 + _) := .next .start rfl (by decide)
    rw [← Nat.zero_add 2, ← hblock]
    exact hnext
  obtain ⟨-, -, hchain, -, -, -, -, -, hdeclared⟩ := parse_advances strayBrace
  obtain ⟨-, hstart, hend, -, hafter⟩ := hdeclared false 2 _ [] hreach rfl (by decide)
  have hline : endLine strayBrace = 1 := rfl
  rw [hline, hbrace] at hend hafter
  exact ⟨hhistory, hreach, hbrace, hchain, hstart, hend, hafter⟩

end SlotScript
