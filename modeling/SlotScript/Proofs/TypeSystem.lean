import SlotScript.Stmt

/-! # The type system

The rules by which expressions and statements have types, stated for the syntax
alone.  An environment lists the variables in force with their types, one frame for
each open block, the innermost first.

`Expr.HasType env e t` says that the expression `e` has type `t`.  An expression
changes no types, so the environment is a parameter.  `Stmt.Types env s t after`
says that the statement `s` is well typed, that its value has type `t` if it has one,
and that the environment is `after` behind it.  A program is typed from one empty
frame (`Program.HasType`).

Which types an operator takes depends on its family, and the families differ in what
they make of a truth value or a double: unary minus and powers count a truth value as
a number while sums do not, and `~` cuts a double to a whole number while `&` rejects
it.  The tables for operators are `Typing.Turns` and `Typing.Joins`. -/

namespace SlotScript

namespace Typing

/-! ### Classes of types -/

/-- The types with arithmetic. -/
inductive Numeric : Ty → Prop
  | int : Numeric .int
  | long : Numeric .long
  | double : Numeric .double

/-- The types of whole numbers. -/
inductive Whole : Ty → Prop
  | int : Whole .int
  | long : Whole .long

/-- The types that stand for a number or for a truth value, as is needed. -/
inductive NumericOrBool : Ty → Prop
  | numeric {t : Ty} : Numeric t → NumericOrBool t
  | bool : NumericOrBool .bool

/-- The types of numbers and of character codes. -/
inductive NumericOrChar : Ty → Prop
  | numeric {t : Ty} : Numeric t → NumericOrChar t
  | char : NumericOrChar .char

/-- A value of the first type can be stored where the second is declared. -/
inductive Widens : Ty → Ty → Prop
  | same (t : Ty) : Widens t t
  | intLong : Widens .int .long
  | intDouble : Widens .int .double
  | longDouble : Widens .long .double

/-- The third type is the wider of the first two. -/
inductive Wider : Ty → Ty → Ty → Prop
  | left {l r : Ty} : Widens r l → Wider l r l
  | right {l r : Ty} : Widens l r → Wider l r r

/-- A cast from the first type to the second is legal. -/
inductive Casts : Ty → Ty → Prop
  | same (t : Ty) : Casts t t
  | toObject (t : Ty) : Casts t .object
  | toString (t : Ty) : Casts t .string
  | fromObject (t : Ty) : Casts .object t
  | numeric {s t : Ty} : NumericOrChar s → NumericOrChar t → Casts s t

/-- The names of types. -/
def names : List (String × Ty) :=
  [("int", .int), ("long", .long), ("double", .double), ("bool", .bool), ("string", .string),
    ("char", .char), ("object", .object)]

/-! ### Operators -/

/-- What an operator in front of an operand makes of its type. -/
inductive Turns : Token.Kind → Ty → Ty → Prop
  | negate {t : Ty} : Numeric t → Turns .minus t t
  | negateBool : Turns .minus .bool .int
  | not {t : Ty} : NumericOrBool t → Turns .bang t .bool
  | complement {t : Ty} : Whole t → Turns .bitNot t t
  | complementDouble : Turns .bitNot .double .int
  | complementBool : Turns .bitNot .bool .int

/-- The families of operators between two operands, powers apart. -/
inductive Family where
  | arithmetic | bitwise | equality | order
deriving DecidableEq, Repr

/-- The operators of a family. -/
def Family.operators : Family → List Token.Kind
  | .arithmetic => [.plus, .minus, .star, .slash, .percent]
  | .bitwise => [.bitAnd, .bitOr, .bitXor, .leftShift, .rightShift]
  | .equality => [.equalEqual, .bangEqual]
  | .order => [.less, .lessEqual, .greater, .greaterEqual]

/-- What a family makes of the types of two operands. -/
inductive Family.Takes : Family → Ty → Ty → Ty → Prop
  | arithmetic {l r t : Ty} : Numeric l → Numeric r → Wider l r t → Takes .arithmetic l r t
  | bitwise {l r t : Ty} : Whole l → Whole r → Wider l r t → Takes .bitwise l r t
  | same (t : Ty) : Takes .equality t t .bool
  | numbersEqual {l r : Ty} : Numeric l → Numeric r → Takes .equality l r .bool
  | numbersOrder {l r : Ty} : Numeric l → Numeric r → Takes .order l r .bool
  | chars : Takes .order .char .char .bool

/-- What an operator between two operands makes of their types.  A plus with a string
on either side joins texts. -/
inductive Joins : Token.Kind → Ty → Ty → Ty → Prop
  | wholePower {l r t : Ty} : Whole l → Whole r → Wider l r t → Joins .power l r t
  | power {l r : Ty} :
      NumericOrBool l → NumericOrBool r → ¬(Whole l ∧ Whole r) → Joins .power l r .double
  | concat {l r : Ty} : l = .string ∨ r = .string → Joins .plus l r .string
  | operator {k : Token.Kind} {f : Family} {l r t : Ty} :
      k ∈ f.operators → f.Takes l r t → Joins k l r t

/-! ### Environments -/

/-- The variables in force with their types, the innermost frame first. -/
abbrev Env := List (List (String × Ty))

/-- The innermost binding of a name has this type. -/
inductive Binds : Env → String → Ty → Prop
  | here {frame : List (String × Ty)} {outer : Env} {x : String} {t : Ty} :
      frame.lookup x = some t → Binds (frame :: outer) x t
  | outer {frame : List (String × Ty)} {outer : Env} {x : String} {t : Ty} :
      frame.lookup x = none → Binds outer x t → Binds (frame :: outer) x t

end Typing

open Typing

/-! ### Expressions -/

/-- The expression has this type. -/
inductive Expr.HasType (env : Env) : Expr → Ty → Prop
  | int (n : Int32) : HasType env (.literal (.int n)) .int
  | long (n : Int64) : HasType env (.literal (.long n)) .long
  | double (x : Float) : HasType env (.literal (.double x)) .double
  | bool (b : Bool) : HasType env (.literal (.bool b)) .bool
  | string (s : String) : HasType env (.literal (.string s)) .string
  | char (c : Char) : HasType env (.literal (.char c)) .char
  | null : HasType env (.literal .null) .object
  | grouping {e : Expr} {t : Ty} : HasType env e t → HasType env (.grouping e) t
  | var {name : Token} {t : Ty} : Binds env name.lexeme t → HasType env (.var name) t
  | assign {target : Token} {e : Expr} {t u : Ty} :
      Binds env target.lexeme t → HasType env e u → Widens u t → HasType env (.assign target e) t
  | unary {op : Token} {e : Expr} {t u : Ty} :
      HasType env e t → Turns op.kind t u → HasType env (.unary op e) u
  | binary {left right : Expr} {op : Token} {l r t : Ty} :
      HasType env left l → HasType env right r → Joins op.kind l r t →
      HasType env (.binary left op right) t
  | logical {left right : Expr} {op : Token} {l r : Ty} :
      HasType env left l → NumericOrBool l → HasType env right r → NumericOrBool r →
      HasType env (.logical left op right) .bool
  | cast {target : Token} {e : Expr} {t u : Ty} :
      (target.lexeme, u) ∈ names → HasType env e t → Casts t u → HasType env (.cast target e) u
  | step {op target : Token} {isPrefix : Bool} {t : Ty} :
      Binds env target.lexeme t → Numeric t → HasType env (.step op target isPrefix) t

/-! ### Statements -/

mutual

/-- The statement is well typed, with the type of its value and the environment
behind it.  A variable is in force in its own initial value; there is no rule for
conditionals. -/
inductive Stmt.Types : Env → Stmt → Option Ty → Env → Prop
  | expression {env : Env} {e : Expr} {t : Ty} :
      e.HasType env t → Stmt.Types env (.expression e) (some t) env
  | print {env : Env} {e : Expr} {t : Ty} : e.HasType env t → Stmt.Types env (.print e) none env
  | declare {frame : List (String × Ty)} {outer : Env} {type : Ty} {name : Token} :
      frame.lookup name.lexeme = none →
      Stmt.Types (frame :: outer) (.declare type name none) (some type)
        ((frame ++ [(name.lexeme, type)]) :: outer)
  | declareInit {frame : List (String × Ty)} {outer : Env} {type t : Ty} {name : Token}
      {e : Expr} :
      frame.lookup name.lexeme = none →
      e.HasType ((frame ++ [(name.lexeme, type)]) :: outer) t → Widens t type →
      Stmt.Types (frame :: outer) (.declare type name (some e)) (some type)
        ((frame ++ [(name.lexeme, type)]) :: outer)
  | block {env after : Env} {body : List Stmt} {t : Option Ty} :
      Stmt.TypesAll ([] :: env) body t after → Stmt.Types env (.block body) t env

/-- The statements are well typed in order, with the type of the last. -/
inductive Stmt.TypesAll : Env → List Stmt → Option Ty → Env → Prop
  | nil {env : Env} : Stmt.TypesAll env [] none env
  | last {env after : Env} {stmt : Stmt} {t : Option Ty} :
      Stmt.Types env stmt t after → Stmt.TypesAll env [stmt] t after
  | cons {env mid after : Env} {stmt next : Stmt} {rest : List Stmt} {t u : Option Ty} :
      Stmt.Types env stmt t mid → Stmt.TypesAll mid (next :: rest) u after →
      Stmt.TypesAll env (stmt :: next :: rest) u after

end

/-- The program is well typed, and its value has this type if it has one. -/
def Program.HasType (program : List Stmt) (t : Option Ty) : Prop :=
  ∃ after, Stmt.TypesAll [[]] program t after

end SlotScript
