import SlotScript.Double
import SlotScript.Token.Basic

/-! # Expressions

The tree of an expression keeps the tokens it was built from, since names,
operators and cast types are resolved later and errors point at them.  `Expr.text`
writes a tree with its operators in front and every nesting in parentheses. -/

namespace SlotScript

/-- The tree of an expression. -/
inductive Expr where
  | literal (value : Literal)
  | var (name : Token)
  | unary (op : Token) (operand : Expr)
  | binary (left : Expr) (op : Token) (right : Expr)
  /-- `&&` and `||`, whose right side is skipped when the left decides. -/
  | logical (left : Expr) (op : Token) (right : Expr)
  | assign (target : Token) (value : Expr)
  | grouping (inner : Expr)
  /-- A cast to the type that the token names. -/
  | cast (target : Token) (operand : Expr)
  /-- A variable stepped up or down by one, before or after it is read. -/
  | step (op : Token) (target : Token) (isPrefix : Bool)
deriving BEq, Repr

/-- `true` and `false` as they are shown to the user. -/
def boolText (b : Bool) : String := if b then "true" else "false"

/-- A literal as it is written in a program. -/
def Literal.text : Literal → String
  | .int n => n.toInt.repr
  | .long n => n.toInt.repr
  | .double x => Double.text x
  | .bool b => boolText b
  | .string s => "\"" ++ s ++ "\""
  | .char c => "'" ++ String.singleton c ++ "'"
  | .null => "null"

/-- The expression with its operators in front. -/
def Expr.text : Expr → String
  | .literal value => value.text
  | .var name => name.lexeme
  | .unary op operand => "(" ++ op.lexeme ++ " " ++ operand.text ++ ")"
  | .binary left op right => "(" ++ op.lexeme ++ " " ++ left.text ++ " " ++ right.text ++ ")"
  | .logical left op right => "(" ++ op.lexeme ++ " " ++ left.text ++ " " ++ right.text ++ ")"
  | .assign target value => "(= " ++ target.lexeme ++ " " ++ value.text ++ ")"
  | .grouping inner => "(group " ++ inner.text ++ ")"
  | .cast target operand => "((" ++ target.lexeme ++ ") " ++ operand.text ++ ")"
  | .step op target true => "(" ++ op.lexeme ++ target.lexeme ++ ")"
  | .step op target false => "(" ++ target.lexeme ++ op.lexeme ++ ")"

end SlotScript
