import SlotScript.Expr
import SlotScript.Machine.Run
import SlotScript.Stmt

/-! # Direct evaluation

The meaning of a program without slots and without lowered code, and with tables
of its own for the operators.  An expression has a value together with its static
type.  The variables in force stand in a stack of frames that are looked up by
name:

* a declaration binds its name to the default value of its type, and the
  initial value, which sees that binding already, is widened and stored;
* a block pushes a frame and pops it again;
* a name means its binding in the innermost frame that has one at the time;
* operands are evaluated once, from left to right, and brought to one type
  afterwards;
* `&&` and `||` leave out the right operand if the left one decides.

A division of whole numbers or a cast may fail, with the line of its token.
Everything that a well-typed program never does is `stuck`. -/

namespace SlotScript

/-! ### Values and types -/

namespace Ty

/-- The one of two types that both widen to. -/
def wider (l r : Ty) : Ty := if l.widens r then r else l

/-- The type of the number that a value of a type counts as. -/
def number : Ty → Ty
  | .bool => .int
  | t => t

/-- The type of the whole number that a value of a type counts as. -/
def whole : Ty → Ty
  | .bool | .double => .int
  | t => t

end Ty

namespace Value

/-- The value as one of a wider type. -/
def widen : Value → Ty → Value
  | .int n, .long => .long n.toInt64
  | .int n, .double => .double n.toInt64.toFloat
  | .long n, .double => .double n.toFloat
  | v, _ => v

/-- The value as a number: `true` counts as one and `false` as zero. -/
def number : Value → Value
  | .bool b => .int (if b then 1 else 0)
  | v => v

/-- The value as a whole number: a double is cut towards zero. -/
def whole : Value → Value
  | .double x => .int x.toInt32
  | v => v.number

/-- The truth of a value: a number is true if it is not zero. -/
def truth? : Value → Option Bool
  | .bool b => some b
  | .int n => some (n != 0)
  | .long n => some (n != 0)
  | .double x => some (x != 0.0)
  | _ => none

/-- A power of two numbers of one type. -/
def raise? : Value → Value → Option Value
  | .int b, .int n => some (.int (intPower b n))
  | .long b, .long n => some (.long (longPower b n))
  | .double b, .double n => some (.double (b.pow n))
  | _, _ => none

end Value

/-- A value with the static type of the expression that it is the value of. -/
structure Typed where
  type : Ty
  value : Value

namespace Direct

/-! ### States -/

/-- The variables of a block by name, each with its declared type. -/
def Bindings : Type := String → Option Typed

namespace Bindings

/-- No variables. -/
def empty : Bindings := fun _ => none

/-- The bindings with a name bound anew. -/
def set (f : Bindings) (name : String) (x : Typed) : Bindings := fun other =>
  if other = name then some x else f other

end Bindings

/-- The frames of the blocks that are open, innermost first, and the output. -/
structure State where
  frames : List Bindings
  output : ByteArray

/-- Why evaluation ends early. -/
inductive Stop where
  | failed (f : Failure)
  | stuck

end Direct

/-- A step of direct evaluation. -/
abbrev Direct (α : Type) : Type := Attempt Direct.State Direct.Stop α

namespace Direct

/-- The variable that a name means. -/
def find? (name : String) (frames : List Bindings) : Option Typed := frames.findSome? (· name)

/-- Gives a value to the variable that a name means. -/
def update? (name : String) (v : Value) : List Bindings → Option (List Bindings)
  | [] => none
  | f :: rest =>
    match f name with
    | some x => some (f.set name ⟨x.type, v⟩ :: rest)
    | none => (update? name v rest).map (f :: ·)

/-- A result that well-typed programs always have. -/
def certain {α : Type} (r : Option α) : Direct α := Attempt.ofExcept (r.elim (.error .stuck) .ok)

/-- A result whose fault belongs to a line. -/
def failAt {α : Type} (line : Nat) (r : Except ValueFault α) : Direct α :=
  Attempt.ofExcept (r.mapError fun fault => .failed ⟨some line, .value fault⟩)

@[simp] theorem certain_some {α : Type} (a : α) : certain (some a) = pure a := rfl

@[simp] theorem failAt_ok {α : Type} (line : Nat) (a : α) : failAt line (.ok a) = pure a := rfl

/-- Reads a variable. -/
def read (name : String) : Direct Typed := do
  certain (find? name (← Attempt.get).frames)

/-- Writes a variable. -/
def write (name : String) (v : Value) : Direct Unit := do
  let frames ← certain (update? name v (← Attempt.get).frames)
  Attempt.modify fun s => { s with frames }

/-- Binds a name in the innermost frame to the default value of a type. -/
def bindName (name : String) (type : Ty) : Direct Unit := do
  match (← Attempt.get).frames with
  | f :: rest => Attempt.modify fun s =>
    { s with frames := f.set name ⟨type, .default type⟩ :: rest }
  | [] => certain none

/-- Evaluates inside a new frame. -/
def inFrame {α : Type} (inside : Direct α) : Direct α := do
  Attempt.modify fun s => { s with frames := .empty :: s.frames }
  let a ← inside
  Attempt.modify fun s => { s with frames := s.frames.tail }
  return a

/-- Prints a value on a line of its own. -/
def print (v : Value) : Direct Unit :=
  Attempt.modify fun s => { s with output := s.output ++ (v.text ++ "\n").toByteArray }

/-! ### Operators -/

/-- The operator that a token in front of an operand stands for. -/
def applyUnary (op : Token) (x : Typed) : Direct Typed :=
  match op.kind with
  | .minus => return ⟨x.type.number, ← certain (UnaryOp.negate.onValue x.value.number).toOption⟩
  | .bang => return ⟨.bool, .bool !(← certain x.value.truth?)⟩
  | .bitNot => return ⟨x.type.whole, ← certain (UnaryOp.complement.onValue x.value.whole).toOption⟩
  | _ => certain none

/-- A power: of whole numbers where both operands are, and of doubles else. -/
def raise (x y : Typed) : Direct Typed := do
  if x.type.isIntegral && y.type.isIntegral then
    let t := x.type.wider y.type
    return ⟨t, ← certain ((x.value.widen t).raise? (y.value.widen t))⟩
  else
    return ⟨.double,
      ← certain ((x.value.number.widen .double).raise? (y.value.number.widen .double))⟩

/-- The operators between two operands, by the kinds of their tokens.  Powers and joined
texts are not looked up here. -/
def operators : List (Token.Kind × BinaryOp) :=
  [(.star, .arithmetic .multiply), (.slash, .arithmetic .divide),
    (.percent, .arithmetic .remainder), (.plus, .arithmetic .add), (.minus, .arithmetic .subtract),
    (.leftShift, .bitwise .shiftLeft), (.rightShift, .bitwise .shiftRight),
    (.bitAnd, .bitwise .and), (.bitXor, .bitwise .xor), (.bitOr, .bitwise .or),
    (.less, .comparison .less), (.lessEqual, .comparison .lessEqual),
    (.greater, .comparison .greater), (.greaterEqual, .comparison .greaterEqual),
    (.equalEqual, .comparison .equal), (.bangEqual, .comparison .notEqual)]

/-- The type of what an operator gives on two values of a type. -/
def typeOf : BinaryOp → Ty → Ty
  | .comparison _, _ => .bool
  | .arithmetic _, t | .bitwise _, t => t

/-- The number by which a variable of a type is stepped. -/
def one? : Ty → Option Value
  | .int => some (.int 1)
  | .long => some (.long 1)
  | .double => some (.double 1.0)
  | .bool | .char | .string | .object => none

/-- The operator that a token between two operands stands for. -/
def applyBinary (op : Token) (x y : Typed) : Direct Typed := do
  if op.kind = .power then raise x y
  else if op.kind = .plus ∧ (x.type = .string ∨ y.type = .string) then
    return ⟨.string, .string (x.value.text ++ y.value.text)⟩
  else
    let o ← certain (operators.lookup op.kind)
    let t := x.type.wider y.type
    return ⟨typeOf o t, ← failAt op.line (o.onValues (x.value.widen t) (y.value.widen t))⟩

end Direct

open Direct

/-! ### Expressions and statements -/

/-- Evaluates an expression. -/
def Expr.eval : Expr → Direct Typed
  | .literal v => return ⟨v.type, v.value⟩
  | .grouping e => e.eval
  | .var name => Direct.read name.lexeme
  | .assign target e => do
    let x ← e.eval
    let old ← Direct.read target.lexeme
    let v := x.value.widen old.type
    Direct.write target.lexeme v
    return ⟨old.type, v⟩
  | .unary op e => do applyUnary op (← e.eval)
  | .binary left op right => do
    let x ← left.eval
    let y ← right.eval
    applyBinary op x y
  | .logical left op right => do
    let decided ← certain (← left.eval).value.truth?
    if decided = decide (op.kind = .or) then return ⟨.bool, .bool decided⟩
    else return ⟨.bool, .bool (← certain (← right.eval).value.truth?)⟩
  | .cast target e => do
    let x ← e.eval
    let t ← certain (Ty.ofName? target.lexeme)
    return ⟨t, ← failAt target.line (x.value.cast t)⟩
  | .step op target isPrefix => do
    let x ← Direct.read target.lexeme
    let one ← certain (one? x.type)
    let o := if op.kind = .increment then Arithmetic.add else Arithmetic.subtract
    let v ← failAt op.line ((BinaryOp.arithmetic o).onValues x.value one)
    Direct.write target.lexeme v
    return ⟨x.type, if isPrefix then v else x.value⟩

mutual

/-- Evaluates a statement, which may have a value too. -/
def Stmt.eval : Stmt → Direct (Option Typed)
  | .expression e => return some (← e.eval)
  | .print e => do
    Direct.print (← e.eval).value
    return none
  | .declare type name none => do
    Direct.bindName name.lexeme type
    return some ⟨type, .default type⟩
  | .declare type name (some e) => do
    Direct.bindName name.lexeme type
    let v := (← e.eval).value.widen type
    Direct.write name.lexeme v
    return some ⟨type, v⟩
  | .block body => inFrame (Stmt.evalAll none body)
  | .conditional _ _ _ _ => certain none

/-- Evaluates statements in order and gives the value of the last one, or `last`
if there are none. -/
def Stmt.evalAll (last : Option Typed) : List Stmt → Direct (Option Typed)
  | [] => return last
  | stmt :: rest => do
    let x ← stmt.eval
    Stmt.evalAll x rest

end

/-- Evaluates a program and prints the value of its last statement, if that has
one. -/
def evaluate (program : List Stmt) : Except Direct.Stop Unit × ByteArray :=
  let whole : Direct Unit := do
    match ← Stmt.evalAll none program with
    | some x => Direct.print x.value
    | none => return ()
  let (result, s) := whole.run ⟨[.empty], .empty⟩
  (result, s.output)

end SlotScript
