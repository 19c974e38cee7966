import SlotScript.Lexing.Basic
import SlotScript.Lowering
import SlotScript.Machine.Run
import SlotScript.Parsing.Basic

/-! # Programs from source text

A source text is read completely before anything is lowered, so that one run
reports all that is wrong with it.  Nothing is lowered after a diagnostic, and
nothing runs unless the whole program could be lowered. -/

namespace SlotScript

/-- Why a program did not run to its end. -/
inductive RunError where
  | lexical (count : Nat)
  | syntactic (count : Nat)
  | lowering (e : LowerError)
  | running (f : Failure)
deriving DecidableEq, Repr

/-- The error as it is shown to the user. -/
def RunError.text : RunError → String
  | .lexical count => "Generated " ++ count.repr ++ " scanner errors"
  | .syntactic count => "Generated " ++ count.repr ++ " parser errors"
  | .lowering e => e.text
  | .running f => f.text

/-- Lowers a program and runs it. -/
def execute (program : List Stmt) (sink : Sink) : Except RunError Unit × Sink :=
  match lower program with
  | .error e => (.error (.lowering e), sink)
  | .ok p =>
    let (result, sink) := p.run sink
    (result.mapError .running, sink)

/-- The statements of a source text, with what was reported while reading it. -/
structure Source where
  statements : List Stmt
  lexical : List Diagnostic
  syntactic : List Diagnostic

namespace Source

/-- Reads a source text.  The `names` are accepted as types in a cast. -/
def read (names : List String) (text : String) : Source :=
  let lexed := lex names text
  let parsed := parse lexed.tokens
  ⟨parsed.statements, lexed.diagnostics, parsed.reports.map SyntaxError.diagnostic⟩

/-- All that was reported. -/
def diagnostics (s : Source) : List Diagnostic := s.lexical ++ s.syntactic

/-- Runs the statements, unless something was reported. -/
def run (s : Source) (sink : Sink) : Except RunError Unit × Sink :=
  if !s.lexical.isEmpty then (.error (.lexical s.lexical.length), sink)
  else if !s.syntactic.isEmpty then (.error (.syntactic s.syntactic.length), sink)
  else execute s.statements sink

end Source

end SlotScript
