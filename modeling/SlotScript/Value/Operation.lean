import SlotScript.Value.Basic

/-! # Operations on values

Whole numbers wrap around at their width.  Division truncates towards zero and
fails on a zero divisor and on the one quotient that does not fit.  A shift takes
the low 32 bits of its right operand as a count and masks them to the width, and a
shift to the right keeps the sign.  Doubles follow IEEE arithmetic, so a comparison
with no number is false. -/

namespace SlotScript

namespace Arithmetic

/-- The operator on `int`. -/
def onInt (op : Arithmetic) (l r : Int32) : Except ValueFault Int32 :=
  match op with
  | .add => .ok (l + r)
  | .subtract => .ok (l - r)
  | .multiply => .ok (l * r)
  | .divide =>
    if r = 0 then .error .divisionByZero
    else if l = Int32.minValue ∧ r = -1 then .error .overflow
    else .ok (l / r)
  | .remainder =>
    if r = 0 then .error .divisionByZero
    else if l = Int32.minValue ∧ r = -1 then .error .overflow
    else .ok (l % r)

/-- The operator on `long`. -/
def onLong (op : Arithmetic) (l r : Int64) : Except ValueFault Int64 :=
  match op with
  | .add => .ok (l + r)
  | .subtract => .ok (l - r)
  | .multiply => .ok (l * r)
  | .divide =>
    if r = 0 then .error .divisionByZero
    else if l = Int64.minValue ∧ r = -1 then .error .overflow
    else .ok (l / r)
  | .remainder =>
    if r = 0 then .error .divisionByZero
    else if l = Int64.minValue ∧ r = -1 then .error .overflow
    else .ok (l % r)

/-- The operator on `double`. -/
def onDouble (op : Arithmetic) (l r : Float) : Float :=
  match op with
  | .add => l + r
  | .subtract => l - r
  | .multiply => l * r
  | .divide => l / r
  | .remainder => Double.remainder l r

end Arithmetic

namespace Bitwise

/-- A count masked to a width, which is a power of two. -/
def masked (width count : UInt32) : Nat := (count &&& (width - 1)).toNat

/-- The operator on `int`. -/
def onInt (op : Bitwise) (l r : Int32) : Int32 :=
  match op with
  | .and => l &&& r
  | .or => l ||| r
  | .xor => l ^^^ r
  | .shiftLeft => .ofBitVec (l.toBitVec <<< masked 32 r.toUInt32)
  | .shiftRight => .ofBitVec (l.toBitVec.sshiftRight (masked 32 r.toUInt32))

/-- The operator on `long`. -/
def onLong (op : Bitwise) (l r : Int64) : Int64 :=
  match op with
  | .and => l &&& r
  | .or => l ||| r
  | .xor => l ^^^ r
  | .shiftLeft => .ofBitVec (l.toBitVec <<< masked 64 r.toUInt64.toUInt32)
  | .shiftRight => .ofBitVec (l.toBitVec.sshiftRight (masked 64 r.toUInt64.toUInt32))

end Bitwise

namespace Comparison

/-- The answer of a relational operator on two values of an ordered type. -/
def ofOrder {α : Type} [LT α] [LE α] [DecidableLT α] [DecidableLE α] (op : Comparison) (l r : α) :
    Bool :=
  match op with
  | .less => l < r
  | .lessEqual => l ≤ r
  | .greater => r < l
  | _ => r ≤ l

/-- The operator on two values.  Equality is defined for all, and values of
different tags are not equal; an order is defined on numbers and characters. -/
def onValues (op : Comparison) (l r : Value) : Except ValueFault Bool :=
  match op with
  | .equal => .ok (l == r)
  | .notEqual => .ok (l != r)
  | _ =>
    match l, r with
    | .int a, .int b => .ok (op.ofOrder a b)
    | .long a, .long b => .ok (op.ofOrder a b)
    | .double a, .double b => .ok (op.ofOrder a b)
    | .char a, .char b => .ok (op.ofOrder a b)
    | _, _ => .error (.undefinedBinary (.comparison op) l.tag r.tag)

end Comparison

namespace BinaryOp

/-- The operator on two values.  Those of the first two families need operands
with one tag. -/
def onValues (op : BinaryOp) (l r : Value) : Except ValueFault Value :=
  match op with
  | .comparison op => (op.onValues l r).map .bool
  | .arithmetic op =>
    match l, r with
    | .int a, .int b => (op.onInt a b).map .int
    | .long a, .long b => (op.onLong a b).map .long
    | .double a, .double b => .ok (.double (op.onDouble a b))
    | _, _ => .error (.undefinedBinary (.arithmetic op) l.tag r.tag)
  | .bitwise op =>
    match l, r with
    | .int a, .int b => .ok (.int (op.onInt a b))
    | .long a, .long b => .ok (.long (op.onLong a b))
    | _, _ => .error (.undefinedBinary (.bitwise op) l.tag r.tag)

end BinaryOp

namespace UnaryOp

/-- The operator on a value. -/
def onValue (op : UnaryOp) (v : Value) : Except ValueFault Value :=
  match op, v with
  | .negate, .int n => .ok (.int (-n))
  | .negate, .long n => .ok (.long (-n))
  | .negate, .double x => .ok (.double (-x))
  | .not, .bool b => .ok (.bool !b)
  | .complement, .int n => .ok (.int (~~~n))
  | .complement, .long n => .ok (.long (~~~n))
  | _, _ => .error (.undefinedUnary op v.tag)

end UnaryOp

end SlotScript
