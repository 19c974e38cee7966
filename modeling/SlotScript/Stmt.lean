import SlotScript.Expr

/-! # Statements

A program is a list of statements.  Branching statements have a shape here, but
no meaning yet: reading a program never makes one, and lowering refuses them. -/

namespace SlotScript

/-- The words that open a conditional statement. -/
inductive Branching where
  | ifForm | elifForm
deriving DecidableEq, Repr

/-- A statement. -/
inductive Stmt where
  | expression (e : Expr)
  | print (e : Expr)
  | block (body : List Stmt)
  /-- A variable of a declared type, with an optional initial value. -/
  | declare (type : Ty) (name : Token) (initial : Option Expr)
  /-- A conditional statement with its branches in source order. -/
  | conditional (form : Branching) (keyword : Token) (condition : Expr) (branches : List Stmt)
deriving BEq, Repr

namespace Branching

/-- The word that the form is known by. -/
def name : Branching → String
  | .ifForm => "if"
  | .elifForm => "elif"

end Branching

end SlotScript
