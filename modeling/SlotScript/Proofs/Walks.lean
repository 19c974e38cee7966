import SlotScript.Proofs.Resumption

/-! # Walks through a token list

A `Reading` says how many tokens were taken in the end.  A `Walk` notes in addition the
places that the reader came to before, in the order in which it came to them, each counted
from where the reader started.

`Goal.walk`, `Stmt.walkSimple` and `Body.walk` read as `Goal.read`, `Stmt.readSimple` and
`Body.read` do, clause by clause, and note their places on the way.  The notes decide
nothing: without them a walk is the reading (`Goal.walk_reading`, `Body.walk_body`). -/

namespace SlotScript

open Reading

/-- A reading and the places between its start and its end. -/
structure Walk (α : Type) where
  reading : Reading α
  places : List Nat

namespace Walk

variable {α β : Type}

/-- A reading that comes to no place between its start and its end. -/
def direct (r : Reading α) : Walk α := ⟨r, []⟩

/-- The same walk, made behind a token that was taken before. -/
def behind (w : Walk α) : Walk α := ⟨w.reading.behind 1, 1 :: w.places.map (1 + ·)⟩

/-- Goes on after a success, from the place where the first walk ended. -/
def andThen (w : Walk α) (next : α → Nat → Walk β) : Walk β where
  reading := w.reading.andThen fun a n => (next a n).reading
  places :=
    match w.reading.outcome with
    | .error _ => w.places
    | .ok a =>
      w.places ++ w.reading.used :: (next a w.reading.used).places.map (w.reading.used + ·)

/-- Takes a token of one kind. -/
def expect (last : Nat) (kind : Token.Kind) (what : Expectation) (ts : List Token) :
    Walk Token :=
  direct (Reading.expect last kind what ts)

@[simp] theorem direct_reading (r : Reading α) : (direct r).reading = r := rfl

@[simp] theorem behind_reading (w : Walk α) : w.behind.reading = w.reading.behind 1 := rfl

@[simp] theorem andThen_reading (w : Walk α) (next : α → Nat → Walk β) :
    (w.andThen next).reading = w.reading.andThen fun a n => (next a n).reading := rfl

@[simp] theorem expect_reading (last : Nat) (kind : Token.Kind) (what : Expectation)
    (ts : List Token) : (expect last kind what ts).reading = Reading.expect last kind what ts :=
  rfl

end Walk

/-! ### Expressions -/

namespace Goal

/-- Reads the goal off the front of the tokens and notes the places on the way. -/
def walk (last : Nat) (goal : Goal) (ts : List Token) : Walk Expr :=
  match goal with
  | .assignment =>
    (walk last (.level levels) ts).andThen fun left n =>
      match _h : ts.drop n with
      | op :: rest =>
        if op.kind.isAssignment then
          (walk last .assignment rest).behind.andThen fun value _ =>
            .direct (assignTo left op value)
        else .direct (.done left 0)
      | [] => .direct (.done left 0)
  | .level [] => walk last .unary ts
  | .level (l :: tighter) =>
    (walk last (.level tighter) ts).andThen fun left n =>
      walk last (.more l tighter left) (ts.drop n)
  | .more l tighter left =>
    match ts with
    | op :: rest =>
      if op.kind ∈ l then
        (walk last (.level tighter) rest).behind.andThen fun right n =>
          walk last (.more l tighter (left.join op right)) (rest.drop (n - 1))
      else .direct (.done left 0)
    | [] => .direct (.done left 0)
  | .unary =>
    match ts with
    | op :: rest =>
      if op.kind.isStep then
        (walk last .unary rest).behind.andThen fun operand _ =>
          .direct (stepOf op operand true 0)
      else if op.kind.isUnary then
        (walk last .unary rest).behind.andThen fun operand _ =>
          .direct (.done (.unary op operand) 0)
      else walk last .suffixed (op :: rest)
    | [] => walk last .suffixed []
  | .suffixed =>
    (walk last .primary ts).andThen fun operand n => .direct (stepOrStop operand (ts.drop n))
  | .primary =>
    match ts with
    | t :: rest =>
      match t.kind with
      | .falseWord => .direct (.done (.literal (.bool false)) 1)
      | .trueWord => .direct (.done (.literal (.bool true)) 1)
      | .nullWord => .direct (.done (.literal .null) 1)
      | .number | .string | .character => .direct (literalOf t)
      | .identifier => .direct (.done (.var t) 1)
      | .typeCast =>
        (walk last .unary rest).behind.andThen fun operand _ =>
          .direct (.done (.cast t operand) 0)
      | .leftParen =>
        (walk last .assignment rest).behind.andThen fun inner n =>
          (Walk.expect last .rightParen .groupEnd (rest.drop (n - 1))).andThen fun _ _ =>
            .direct (.done (.grouping inner) 0)
      | _ => .direct (.fail (.atToken t .expectedExpression) 0)
    | [] => .direct (.fail (.atFront last [] .expectedExpression) 0)
termination_by (ts.length, goal.rank)
decreasing_by
  all_goals simp only [Prod.lex_def, rank, List.length_cons, List.length_nil, List.length_drop,
    true_and]
  all_goals first
    | omega
    | exact .inl (drop_length_lt _h)

/-- A walk reads what `read` reads. -/
@[simp] theorem walk_reading (last : Nat) (goal : Goal) (ts : List Token) :
    (walk last goal ts).reading = read last goal ts := by
  fun_induction walk last goal ts with
  | case1 ts ih ihValue =>
      rw [read_assignment, Walk.andThen_reading, ih]
      congr
      funext left n
      -- The hypothesis for the value needs the equation that the match on the rest gives.
      split
      · rename_i op rest h
        rw [h, assignOrStop]
        split
        · rw [Walk.andThen_reading, Walk.behind_reading, ihValue n op rest h]
          rfl
        · rfl
      · rename_i h
        rw [h]
        rfl
  | case8 op rest hstep hunary ih =>
      rw [read, if_neg hstep, if_pos hunary, Walk.andThen_reading, Walk.behind_reading, ih]
      rfl
  | case9 op rest hstep hunary ih => rw [read, if_neg hstep, if_neg hunary, ih]
  | case11 ts ih =>
      rw [read_suffixed, Walk.andThen_reading, ih]
      rfl
  | _ =>
      rw [read]
      simp_all only [Walk.andThen_reading, Walk.behind_reading, Walk.direct_reading,
        Walk.expect_reading, if_true, if_false]

end Goal

/-! ### Statements -/

namespace Stmt

/-- Reads what follows the name of a variable declaration. -/
def walkInitial (last : Nat) (type : Ty) (name : Token) (ts : List Token) : Walk Stmt :=
  match ts with
  | t :: rest =>
    if t.kind = .equal then
      (Goal.walk last .assignment rest).behind.andThen fun initial m =>
        (Walk.expect last .semicolon .declarationEnd (rest.drop (m - 1))).andThen fun _ _ =>
          .direct (.done (.declare type name (some initial)) 0)
    else
      (Walk.expect last .semicolon .declarationEnd (t :: rest)).andThen fun _ _ =>
        .direct (.done (.declare type name none) 0)
  | [] => .direct (.fail (.atFront last [] (.expected .declarationEnd)) 0)

/-- Reads what follows the type of a variable declaration. -/
def walkDeclare (last : Nat) (type : Ty) (ts : List Token) : Walk Stmt :=
  (Walk.expect last .identifier .variableName ts).andThen fun name n =>
    walkInitial last type name (ts.drop n)

/-- Reads an expression and the semicolon behind it. -/
def walkClosed (last : Nat) (what : Expectation) (build : Expr → Stmt) (ts : List Token) :
    Walk Stmt :=
  (Goal.walk last .assignment ts).andThen fun e n =>
    (Walk.expect last .semicolon what (ts.drop n)).andThen fun _ _ => .direct (.done (build e) 0)

/-- Reads a statement that starts with `t` and is not a block. -/
def walkSimple (last : Nat) (t : Token) (ts : List Token) : Walk Stmt :=
  match t.kind with
  | .type type => (walkDeclare last type ts).behind
  | .printWord => (walkClosed last .printEnd .print ts).behind
  | _ => walkClosed last .expressionEnd .expression (t :: ts)

theorem walkInitial_reading (last : Nat) (type : Ty) (name : Token) (ts : List Token) :
    (walkInitial last type name ts).reading = readInitial last type name ts := by
  cases ts with
  | nil => rfl
  | cons t rest =>
      rw [walkInitial, readInitial]
      split
      · simp [Expr.read]
      · simp

theorem walkDeclare_reading (last : Nat) (type : Ty) (ts : List Token) :
    (walkDeclare last type ts).reading = readDeclare last type ts := by
  simp only [walkDeclare, Walk.andThen_reading, Walk.expect_reading, walkInitial_reading]
  rfl

theorem walkClosed_reading (last : Nat) (what : Expectation) (build : Expr → Stmt)
    (ts : List Token) :
    (walkClosed last what build ts).reading = readClosed last what build ts := by
  simp [walkClosed, readClosed, Expr.read]

theorem walkSimple_reading (last : Nat) (t : Token) (ts : List Token) :
    (walkSimple last t ts).reading = readSimple last t ts := by
  unfold walkSimple
  split
  · rename_i type hk
    simp only [readSimple, hk, Walk.behind_reading, walkDeclare_reading]
  · rename_i hk
    simp only [readSimple, hk, Walk.behind_reading, walkClosed_reading]
  · simp_all only [readSimple, walkClosed_reading]

end Stmt

/-! ### Programs -/

/-- A body and the places between its start and its end. -/
structure Route where
  body : Body
  places : List Nat

/-- The places between the start and the end of what is skipped. -/
def skipPlaces : List Token → List Nat
  | [] => []
  | t :: ts =>
    if t.kind = .semicolon then []
    else
      match ts with
      | u :: rest =>
        if u.kind.startsDeclaration then [] else 1 :: (skipPlaces (u :: rest)).map (1 + ·)
      | [] => []

/-- The walk through one statement of `ts`, after an error with what is skipped. -/
def Walk.recover (w : Walk Stmt) (ts : List Token) : Route where
  body := w.reading.recover ts
  places :=
    match w.reading.outcome with
    | .ok _ => w.places
    | .error _ =>
      w.places ++ w.reading.used :: (skipPlaces (ts.drop w.reading.used)).map (w.reading.used + ·)

namespace Route

/-- Nothing read. -/
def empty : Route := ⟨.empty, []⟩

/-- One route behind another. -/
def append (a b : Route) : Route :=
  ⟨a.body.append b.body, a.places ++ a.body.used :: b.places.map (a.body.used + ·)⟩

/-- The walk through a block whose body takes the route `inner`. -/
def close (last : Nat) (inner : Route) (ts : List Token) : Walk Stmt :=
  ⟨inner.body.close last ts, 1 :: inner.places.map (1 + ·) ++ [1 + inner.body.used]⟩

end Route

namespace Body

/-- Reads statements and notes the places on the way. -/
def walk (last : Nat) (nested : Bool) : List Token → Route
  | [] => .empty
  | t :: ts =>
    if nested && t.kind == .rightBrace then .empty
    else
      let first :=
        if t.kind = .leftBrace then ((walk last true ts).close last ts).recover (t :: ts)
        else (Stmt.walkSimple last t ts).recover (t :: ts)
      first.append (walk last nested (ts.drop (first.body.used - 1)))
termination_by ts => ts.length
decreasing_by all_goals (simp only [List.length_drop, List.length_cons]; omega)

/-- The walk through the declaration that starts with `t`. -/
def walkFirst (last : Nat) (t : Token) (ts : List Token) : Route :=
  if t.kind = .leftBrace then ((walk last true ts).close last ts).recover (t :: ts)
  else (Stmt.walkSimple last t ts).recover (t :: ts)

theorem walk_cons (last : Nat) (nested : Bool) (t : Token) (ts : List Token) :
    walk last nested (t :: ts) =
      if nested && t.kind == .rightBrace then .empty
      else (walkFirst last t ts).append
        (walk last nested (ts.drop ((walkFirst last t ts).body.used - 1))) := by
  rw [walk]
  rfl

theorem walkFirst_body_of {last : Nat} {t : Token} {ts : List Token}
    (h : (walk last true ts).body = read last true ts) :
    (walkFirst last t ts).body = first last t ts := by
  unfold walkFirst first
  split
  · simp only [Walk.recover, Route.close, h]
  · simp only [Walk.recover, Stmt.walkSimple_reading]

/-- A walk reads what `read` reads. -/
@[simp] theorem walk_body (last : Nat) (nested : Bool) (ts : List Token) :
    (walk last nested ts).body = read last nested ts := by
  induction hlength : ts.length using Nat.strongRecOn generalizing nested ts with
  | _ n ih =>
      cases ts with
      | nil =>
          rw [walk, read]
          rfl
      | cons t ts =>
          have hinner : (walk last true ts).body = read last true ts := by
            refine ih ts.length ?_ true ts rfl
            rw [← hlength, List.length_cons]
            omega
          have hfirst := walkFirst_body_of (t := t) hinner
          rw [walk_cons, read_cons, hfirst]
          split
          · rfl
          · -- What follows the declaration is shorter, however little the declaration takes.
            have hrest := ih _ ?_ nested (ts.drop ((first last t ts).used - 1)) rfl
            · simp only [Route.append, hfirst, hrest]
            · rw [← hlength, List.length_drop, List.length_cons]
              omega

@[simp] theorem walkFirst_body (last : Nat) (t : Token) (ts : List Token) :
    (walkFirst last t ts).body = first last t ts :=
  walkFirst_body_of (walk_body last true ts)

end Body

end SlotScript
