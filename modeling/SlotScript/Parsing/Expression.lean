import SlotScript.Expr
import SlotScript.Parsing.Reading

/-! # Reading expressions

The grammar has one goal for assignments, one for each level of
left-associative operators, and goals for the operands.

* assignment: a first-level expression, then optionally an assignment operator
  and another assignment.  Only a variable can be assigned to; `x op= e` stands
  for `x = x op e`.
* level: an expression of the next tighter level, then operators of this level,
  each with another operand, grouped to the left.
* unary: `!`, `-`, `~` or a cast before an operand, `++` or `--` before a
  variable; these bind tighter than every level.
* suffixed: a primary expression, and `++` or `--` behind a variable.
* primary: a literal, a variable, a cast, or an expression in parentheses.

`Goal.read` follows these rules.  It ends because every call either works on
fewer tokens or on the same tokens with a goal of lower rank. -/

namespace SlotScript

/-- The operators of one level. -/
abbrev Level := List Token.Kind

/-- The levels of left-associative operators, loosest first. -/
def levels : List Level :=
  [[.or], [.and], [.bangEqual, .equalEqual], [.greater, .greaterEqual, .less, .lessEqual],
    [.bitOr], [.bitXor], [.bitAnd], [.leftShift, .rightShift], [.minus, .plus],
    [.slash, .star, .percent], [.power]]

namespace Token.Kind

/-- The operators of assignments. -/
def isAssignment (k : Kind) : Bool :=
  k ∈ [equal, plusEqual, minusEqual, starEqual, slashEqual, percentEqual, powerEqual]

/-- The operator that a compound assignment applies before it assigns. -/
def compoundBase? : Kind → Option Kind
  | .plusEqual => some .plus
  | .minusEqual => some .minus
  | .starEqual => some .star
  | .slashEqual => some .slash
  | .percentEqual => some .percent
  | .powerEqual => some .power
  | _ => none

/-- The operators that step a variable. -/
def isStep (k : Kind) : Bool := k ∈ [increment, decrement]

/-- The operators in front of one operand. -/
def isUnary (k : Kind) : Bool := k ∈ [bang, minus, bitNot]

end Token.Kind

/-- The operator token inside a compound assignment: the same text without its
last equals sign. -/
def Token.withoutEqual (t : Token) (base : Token.Kind) : Token :=
  let cs := t.lexeme.toList
  let text := if cs.getLast? = some '=' then String.ofList cs.dropLast else t.lexeme
  { kind := base, lexeme := text, line := t.line }

namespace Expr

/-- Two operands joined by an operator of some level. -/
def join (left : Expr) (op : Token) (right : Expr) : Expr :=
  if op.kind = .or ∨ op.kind = .and then .logical left op right else .binary left op right

/-- The value that an assignment to `name` stores. -/
def assigned (name op : Token) (value : Expr) : Expr :=
  match op.kind.compoundBase? with
  | some base => .binary (.var name) (op.withoutEqual base) value
  | none => value

end Expr

/-- What is to be read. -/
inductive Goal where
  | assignment
  /-- An expression with operators of these levels, loosest first. -/
  | level (ls : List Level)
  /-- More operators of level `l` behind the operand `left`. -/
  | more (l : Level) (tighter : List Level) (left : Expr)
  | unary
  | suffixed
  | primary

namespace Goal

/-- A goal's rank falls when it is handed on without taking a token. -/
def rank : Goal → Nat
  | .assignment => levels.length + 4
  | .level ls => ls.length + 3
  | .more _ _ _ => 0
  | .unary => 2
  | .suffixed => 1
  | .primary => 0

/-- The assignment of `value` to the expression `left`.  When `left` cannot be
assigned to, this is reported and `left` stands for the whole. -/
def assignTo (left : Expr) (op : Token) (value : Expr) : Reading Expr :=
  match left with
  | .var name => .done (.assign name (.assigned name op value)) 0
  | _ => ⟨.ok left, 0, [.atToken op .invalidAssignmentTarget]⟩

/-- The step of an operand, which has to be a variable; `n` tokens are taken. -/
def stepOf (op : Token) (operand : Expr) (isPrefix : Bool) (n : Nat) : Reading Expr :=
  match operand with
  | .var target => .done (.step op target isPrefix) n
  | _ => .fail (.atToken op .invalidStepTarget) n

/-- The literal that a token carries. -/
def literalOf (t : Token) : Reading Expr :=
  match t.literal with
  | some value => .done (.literal value) 1
  | none => .fail (.atToken t .expectedExpression) 1

theorem drop_length_lt {ts rest : List Token} {op : Token} {n : Nat}
    (h : ts.drop n = op :: rest) : rest.length < ts.length := by
  have := congrArg List.length h
  simp only [List.length_drop, List.length_cons] at this
  omega

/-- Reads the goal off the front of the tokens.  The end of the tokens lies on
line `last`. -/
def read (last : Nat) (goal : Goal) (ts : List Token) : Reading Expr :=
  match goal with
  | .assignment =>
    (read last (.level levels) ts).andThen fun left n =>
      match _h : ts.drop n with
      | op :: rest =>
        if op.kind.isAssignment then
          ((read last .assignment rest).behind 1).andThen fun value _ => assignTo left op value
        else .done left 0
      | [] => .done left 0
  | .level [] => read last .unary ts
  | .level (l :: tighter) =>
    (read last (.level tighter) ts).andThen fun left n => read last (.more l tighter left) (ts.drop n)
  | .more l tighter left =>
    match ts with
    | op :: rest =>
      if op.kind ∈ l then
        ((read last (.level tighter) rest).behind 1).andThen fun right n =>
          read last (.more l tighter (left.join op right)) (rest.drop (n - 1))
      else .done left 0
    | [] => .done left 0
  | .unary =>
    match ts with
    | op :: rest =>
      if op.kind.isStep then
        ((read last .unary rest).behind 1).andThen fun operand _ => stepOf op operand true 0
      else if op.kind.isUnary then
        ((read last .unary rest).behind 1).andThen fun operand _ => .done (.unary op operand) 0
      else read last .suffixed (op :: rest)
    | [] => read last .suffixed []
  | .suffixed =>
    (read last .primary ts).andThen fun operand n =>
      match ts.drop n with
      | op :: _ => if op.kind.isStep then stepOf op operand false 1 else .done operand 0
      | [] => .done operand 0
  | .primary =>
    match ts with
    | t :: rest =>
      match t.kind with
      | .falseWord => .done (.literal (.bool false)) 1
      | .trueWord => .done (.literal (.bool true)) 1
      | .nullWord => .done (.literal .null) 1
      | .number | .string | .character => literalOf t
      | .identifier => .done (.var t) 1
      | .typeCast =>
        ((read last .unary rest).behind 1).andThen fun operand _ => .done (.cast t operand) 0
      | .leftParen =>
        ((read last .assignment rest).behind 1).andThen fun inner n =>
          (Reading.expect last .rightParen .groupEnd (rest.drop (n - 1))).andThen fun _ _ =>
            .done (.grouping inner) 0
      | _ => .fail (.atToken t .expectedExpression) 0
    | [] => .fail (.atFront last [] .expectedExpression) 0
termination_by (ts.length, goal.rank)
decreasing_by
  all_goals simp only [Prod.lex_def, rank, List.length_cons, List.length_nil, List.length_drop,
    true_and]
  all_goals first
    | omega
    | exact .inl (drop_length_lt _h)

end Goal

/-- Reads an expression. -/
def Expr.read (last : Nat) (ts : List Token) : Reading Expr := Goal.read last .assignment ts

end SlotScript
