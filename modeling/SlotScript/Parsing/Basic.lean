import SlotScript.Parsing.Expression
import SlotScript.Stmt

/-! # Reading programs

A program is a sequence of declarations and statements.  One that cannot be read
is reported once and left out, and reading goes on at the next place where a
statement may start (`skip`), so that one mistake does not hide the statements
around it. -/

namespace SlotScript

/-- What reading a program gives. -/
structure Parsed where
  statements : List Stmt
  reports : List SyntaxError

/-- Statements read from the front of a token list, with the number of tokens
taken and the errors reported. -/
structure Body where
  statements : List Stmt
  used : Nat
  reports : List SyntaxError

namespace Token.Kind

/-- The kinds at which reading can start afresh after an error. -/
def startsDeclaration : Kind → Bool
  | .type _ => true
  | .ifWord | .elifWord | .elseWord | .forWord | .whileWord | .classWord | .returnWord
  | .breakWord | .continueWord => true
  | _ => false

end Token.Kind

namespace Stmt

/-- Reads what follows the type of a variable declaration. -/
def readDeclare (last : Nat) (type : Ty) (ts : List Token) : Reading Stmt :=
  (Reading.expect last .identifier .variableName ts).andThen fun name n =>
    match ts.drop n with
    | t :: rest =>
      if t.kind = .equal then
        ((Expr.read last rest).behind 1).andThen fun initial m =>
          (Reading.expect last .semicolon .declarationEnd (rest.drop (m - 1))).andThen fun _ _ =>
            .done (.declare type name (some initial)) 0
      else
        (Reading.expect last .semicolon .declarationEnd (t :: rest)).andThen fun _ _ =>
          .done (.declare type name none) 0
    | [] => .fail (.atFront last [] (.expected .declarationEnd)) 0

/-- Reads an expression and the semicolon behind it. -/
def readClosed (last : Nat) (what : Expectation) (build : Expr → Stmt) (ts : List Token) :
    Reading Stmt :=
  (Expr.read last ts).andThen fun e n =>
    (Reading.expect last .semicolon what (ts.drop n)).andThen fun _ _ => .done (build e) 0

/-- Reads a statement that starts with `t` and is not a block. -/
def readSimple (last : Nat) (t : Token) (ts : List Token) : Reading Stmt :=
  match t.kind with
  | .type type => (readDeclare last type ts).behind 1
  | .printWord => (readClosed last .printEnd .print ts).behind 1
  | _ => readClosed last .expressionEnd .expression (t :: ts)

end Stmt

/-- How many tokens to pass over after an error: at least one, then on until
behind a semicolon or before a kind that starts a declaration. -/
def skip : List Token → Nat
  | [] => 0
  | t :: ts =>
    if t.kind = .semicolon then 1
    else
      match ts with
      | u :: rest => if u.kind.startsDeclaration then 1 else 1 + skip (u :: rest)
      | [] => 1

/-- The reading of one statement of `ts`, after an error with what is skipped. -/
def Reading.recover (r : Reading Stmt) (ts : List Token) : Body :=
  match r.outcome with
  | .ok s => ⟨[s], r.used, r.reports⟩
  | .error e => ⟨[], r.used + skip (ts.drop r.used), r.reports ++ [e]⟩

namespace Body

/-- Nothing read. -/
def empty : Body := ⟨[], 0, []⟩

/-- One body behind another. -/
def append (a b : Body) : Body := ⟨a.statements ++ b.statements, a.used + b.used, a.reports ++ b.reports⟩

/-- The block that a body fills, once its closing brace is there; `ts` is what
follows the opening brace. -/
def close (last : Nat) (inner : Body) (ts : List Token) : Reading Stmt :=
  let brace := Reading.expect last .rightBrace .blockEnd (ts.drop inner.used)
  ⟨brace.outcome.map fun _ => .block inner.statements, 1 + inner.used + brace.used, inner.reports⟩

/-- Reads statements up to the end of the tokens or, inside a block, up to the
brace that closes it. -/
def read (last : Nat) (nested : Bool) : List Token → Body
  | [] => empty
  | t :: ts =>
    if nested && t.kind == .rightBrace then empty
    else
      let first :=
        if t.kind = .leftBrace then (close last (read last true ts) ts).recover (t :: ts)
        else (Stmt.readSimple last t ts).recover (t :: ts)
      first.append (read last nested (ts.drop (first.used - 1)))
termination_by ts => ts.length
decreasing_by all_goals (simp only [List.length_drop, List.length_cons]; omega)

end Body

/-- The tokens of a program, up to its end mark. -/
def programOf (tokens : List Token) : List Token := tokens.takeWhile fun t => !(t.kind == .eof)

/-- The line on which a program ends: that of its first end mark or, where there is
none, that of its last token. -/
def endLine (tokens : List Token) : Nat :=
  match tokens.find? fun t => t.kind == .eof with
  | some t => t.line
  | none => (tokens.getLast?.map (·.line)).getD 1

/-- Reads a program. -/
def parse (tokens : List Token) : Parsed :=
  let body := Body.read (endLine tokens) false (programOf tokens)
  ⟨body.statements, body.reports⟩

end SlotScript
