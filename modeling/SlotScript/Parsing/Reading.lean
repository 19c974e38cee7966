import SlotScript.Diagnostic

/-! # Readings of a token list

A reader takes tokens from the front of a list.  Its `Reading` says what it
found there, or which error stopped it, how many tokens it took either way, and
which errors it reported without stopping.  What remains is the list without
the taken tokens, so no reading ever goes back or past the end. -/

namespace SlotScript

/-- What a reader looked for and did not find. -/
inductive Expectation where
  | variableName
  | declarationEnd
  | printEnd
  | expressionEnd
  | blockEnd
  | groupEnd
deriving DecidableEq, Repr

/-- A reason why tokens form no program. -/
inductive SyntaxFault where
  | expectedExpression
  | expected (what : Expectation)
  | invalidAssignmentTarget
  | invalidStepTarget
deriving DecidableEq, Repr

/-- The expectation as it is shown to the user. -/
def Expectation.message : Expectation → String
  | .variableName => "Expect variable name."
  | .declarationEnd => "Expect ';' after variable declaration."
  | .printEnd => "Expect ';' after value."
  | .expressionEnd => "Expect ';' after expression."
  | .blockEnd => "Expect '\x7d' after block."
  | .groupEnd => "Expect ')' after expression."

/-- The fault as it is shown to the user. -/
def SyntaxFault.message : SyntaxFault → String
  | .expectedExpression => "Expect expression."
  | .expected what => what.message
  | .invalidAssignmentTarget => "Invalid assignment target."
  | .invalidStepTarget => "Invalid increment/decrement target."

/-- A fault with the place where it was found. -/
structure SyntaxError where
  line : Nat
  location : Location
  fault : SyntaxFault
deriving DecidableEq, Repr

namespace SyntaxError

/-- The error at a token. -/
def atToken (t : Token) (fault : SyntaxFault) : SyntaxError := ⟨t.line, .ofToken t, fault⟩

/-- The error at the first of the tokens `ts`, or at the end, on line `last`. -/
def atFront (last : Nat) (ts : List Token) (fault : SyntaxFault) : SyntaxError :=
  match ts with
  | t :: _ => atToken t fault
  | [] => ⟨last, .atEnd, fault⟩

/-- The error as a diagnostic. -/
def diagnostic (e : SyntaxError) : Diagnostic := ⟨e.line, e.location, e.fault.message⟩

end SyntaxError

/-- What a reader found, the number of tokens it took, and what it reported on
the way. -/
structure Reading (α : Type) where
  outcome : Except SyntaxError α
  used : Nat
  reports : List SyntaxError

namespace Reading

variable {α β : Type}

/-- Found, with `n` tokens taken. -/
def done (a : α) (n : Nat) : Reading α := ⟨.ok a, n, []⟩

/-- Stopped, with `n` tokens taken. -/
def fail (e : SyntaxError) (n : Nat) : Reading α := ⟨.error e, n, []⟩

/-- The same reading, made behind `n` tokens that were taken before. -/
def behind (n : Nat) (r : Reading α) : Reading α := { r with used := n + r.used }

/-- Goes on after a success.  The second reader learns what was found and how
many tokens were taken, and counts its own from there. -/
def andThen (r : Reading α) (next : α → Nat → Reading β) : Reading β :=
  match r.outcome with
  | .error e => ⟨.error e, r.used, r.reports⟩
  | .ok a =>
    let s := next a r.used
    ⟨s.outcome, r.used + s.used, r.reports ++ s.reports⟩

/-- Takes a token of one kind. -/
def expect (last : Nat) (kind : Token.Kind) (what : Expectation) (ts : List Token) :
    Reading Token :=
  match ts with
  | t :: _ => if t.kind = kind then done t 1 else fail (.atToken t (.expected what)) 0
  | [] => fail (.atFront last [] (.expected what)) 0

end Reading

end SlotScript
