import SlotScript.Code.Basic
import SlotScript.Code.Fault

/-! # Promotion

The two operands of an operator are brought to one type before it is applied.
Arithmetic takes the wider of two numeric types, bit operators the wider of two
whole-number types, and comparison either two equal types or two numeric ones.
An operand that has to be a number, a whole number or a truth value is turned
into one where that is possible. -/

namespace SlotScript

namespace Ty

/-- The wider of two numeric types. -/
def promoteNumeric (left right : Ty) : Except LowerFault Ty :=
  match left.rank, right.rank with
  | some i, some j => .ok (if j ≤ i then left else right)
  | _, _ => .error (.unsupportedPromotion left right)

/-- The wider of two types of whole numbers. -/
def promoteIntegral (left right : Ty) : Except LowerFault Ty :=
  if left.isIntegral && right.isIntegral then promoteNumeric left right
  else .error (.unsupportedIntegralPromotion left right)

/-- The type at which values of two types are compared. -/
def promoteComparison (left right : Ty) : Except LowerFault Ty :=
  if left = right then .ok left
  else
    match promoteNumeric left right with
    | .ok t => .ok t
    | .error _ => .error (.unsupportedComparison left right)

end Ty

/-- The type to which the operands of an operator are brought. -/
def BinaryOp.promote : BinaryOp → Ty → Ty → Except LowerFault Ty
  | .arithmetic _ => Ty.promoteNumeric
  | .bitwise _ => Ty.promoteIntegral
  | .comparison _ => Ty.promoteComparison

/-- The type of an operator's result on operands of type `t`. -/
def BinaryOp.resultType : BinaryOp → Ty → Ty
  | .comparison _, _ => .bool
  | _, t => t

namespace Code

/-- The type of the code's value, which has to exist. -/
def valueType (c : Code) : Except LowerFault Ty :=
  match c.type with
  | some t => .ok t
  | none => .error .noValue

/-- One for a true value and zero for a false one. -/
def truthNumber (c : Code) : Code :=
  .condition c (ofValue (.int 1) .int c.line) (ofValue (.int 0) .int c.line) ⟨some .int, c.line⟩

/-- The code as a number; a truth value is one or zero. -/
def asNumeric (c : Code) : Except LowerFault Code := do
  let t ← c.valueType
  if t.isNumeric then return c
  else if t = .bool then return c.truthNumber
  else throw (.notNumeric t)

/-- The code as a whole number; a double is cut to an `int`, and a truth value
is one or zero. -/
def asIntegral (c : Code) : Except LowerFault Code := do
  let t ← c.valueType
  if t.isIntegral then return c
  else if t = .double then return c.convertTo .int
  else if t = .bool then return c.truthNumber
  else throw (.notIntegral t)

/-- The code as a truth value; a number is true when it is not zero. -/
def asBoolean (c : Code) : Except LowerFault Code := do
  let t ← c.valueType
  if t = .bool then return c
  else if t.isNumeric then
    return .binary (.comparison .notEqual) c (ofValue (.default t) t c.line) ⟨some .bool, c.line⟩
  else throw (.notBoolean t)

/-- The code widened for a store into a slot. -/
def asStored (c : Code) (slot : Slot) : Except LowerFault Code := do
  let t ← c.valueType
  if t.widens slot.type then return c.convertTo slot.type
  else throw (.assignmentMismatch slot.name t slot.type)

/-- A power: of whole numbers where both operands are, and of doubles else. -/
def raise (left right : Code) (line : Nat) : Except LowerFault Code := do
  let l ← left.valueType
  let r ← right.valueType
  if l.isIntegral && r.isIntegral then
    let width ← l.promoteIntegral r
    let builtin := if width = .int then Builtin.intPower else Builtin.longPower
    return .call builtin [left.convertTo width, right.convertTo width] ⟨some width, line⟩
  else
    let left ← left.asNumeric
    let right ← right.asNumeric
    return .call .doublePower [left.convertTo .double, right.convertTo .double] ⟨some .double, line⟩

/-- The operator that a token stands for, applied to two operands.  A plus with
a string on either side joins texts. -/
def combine (left : Code) (op : Token) (right : Code) : Except LowerFault Code := do
  let l ← left.valueType
  let r ← right.valueType
  if op.kind = .power then left.raise right op.line
  else if op.kind = .plus ∧ (l = .string ∨ r = .string) then
    return .call .concat [left, right] ⟨some .string, op.line⟩
  else
    match BinaryOp.ofKind? op.kind with
    | none => throw (.unsupportedOperator op.lexeme)
    | some operator =>
      let t ← operator.promote l r
      if operator.isRelational && !t.isScalar then throw (.unsupportedComparison l r)
      else
        return .binary operator (left.convertTo t) (right.convertTo t)
          ⟨some (operator.resultType t), op.line⟩

/-- A cast to the type that a name stands for.  A cast to the type that the code
has already is dropped. -/
def castTo (c : Code) (name : String) (line : Nat) : Except LowerFault Code :=
  match Ty.ofName? name with
  | none => .error (.unresolvableType name)
  | some target => do
    let source ← c.valueType
    if !source.casts target then throw (.invalidConversion source target)
    else if source = target then return c
    else return .convert c ⟨some target, line⟩

end Code

end SlotScript
