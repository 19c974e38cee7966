import SlotScript.Token.Kind

/-! # Operators

The operators that lowered code applies.  Those on two operands fall into three
families, which differ in the operand types they accept. -/

namespace SlotScript

/-- Operators on numbers of one type. -/
inductive Arithmetic where
  | add | subtract | multiply | divide | remainder
deriving DecidableEq, Repr

/-- Operators on the bits of whole numbers. -/
inductive Bitwise where
  | and | or | xor | shiftLeft | shiftRight
deriving DecidableEq, Repr

/-- Operators that compare. -/
inductive Comparison where
  | equal | notEqual | less | lessEqual | greater | greaterEqual
deriving DecidableEq, Repr

/-- An operator on two operands. -/
inductive BinaryOp where
  | arithmetic (op : Arithmetic)
  | bitwise (op : Bitwise)
  | comparison (op : Comparison)
deriving DecidableEq, Repr

/-- An operator on one operand. -/
inductive UnaryOp where
  | negate | not | complement
deriving DecidableEq, Repr

/-- An operator that may leave out its right operand. -/
inductive LogicOp where
  | and | or
deriving DecidableEq, Repr

/-- Operations on several operands that have no operator of their own. -/
inductive Builtin where
  | intPower | longPower | doublePower | concat
deriving DecidableEq, Repr

namespace Comparison

/-- The operators that need an order, not only equality. -/
def isRelational : Comparison → Bool
  | .equal | .notEqual => false
  | _ => true

end Comparison

namespace BinaryOp

/-- The operators that need an order. -/
def isRelational : BinaryOp → Bool
  | .comparison op => op.isRelational
  | _ => false

/-- The operator as it is written. -/
def symbol : BinaryOp → String
  | .arithmetic .add => "+"
  | .arithmetic .subtract => "-"
  | .arithmetic .multiply => "*"
  | .arithmetic .divide => "/"
  | .arithmetic .remainder => "%"
  | .bitwise .and => "&"
  | .bitwise .or => "|"
  | .bitwise .xor => "^"
  | .bitwise .shiftLeft => "<<"
  | .bitwise .shiftRight => ">>"
  | .comparison .equal => "=="
  | .comparison .notEqual => "!="
  | .comparison .less => "<"
  | .comparison .lessEqual => "<="
  | .comparison .greater => ">"
  | .comparison .greaterEqual => ">="

/-- The operator that a token stands for between two operands.  Powers are not
among them, since they are computed by builtins. -/
def ofKind? : Token.Kind → Option BinaryOp
  | .plus => some (.arithmetic .add)
  | .minus => some (.arithmetic .subtract)
  | .star => some (.arithmetic .multiply)
  | .slash => some (.arithmetic .divide)
  | .percent => some (.arithmetic .remainder)
  | .bitAnd => some (.bitwise .and)
  | .bitOr => some (.bitwise .or)
  | .bitXor => some (.bitwise .xor)
  | .leftShift => some (.bitwise .shiftLeft)
  | .rightShift => some (.bitwise .shiftRight)
  | .equalEqual => some (.comparison .equal)
  | .bangEqual => some (.comparison .notEqual)
  | .less => some (.comparison .less)
  | .lessEqual => some (.comparison .lessEqual)
  | .greater => some (.comparison .greater)
  | .greaterEqual => some (.comparison .greaterEqual)
  | _ => none

end BinaryOp

namespace UnaryOp

/-- The operator as it is written. -/
def symbol : UnaryOp → String
  | .negate => "-"
  | .not => "!"
  | .complement => "~"

end UnaryOp

namespace Builtin

/-- The name a builtin is known by in messages. -/
def name : Builtin → String
  | .intPower => "IntPow"
  | .longPower => "LongPow"
  | .doublePower => "FloatPow"
  | .concat => "Concat"

end Builtin

end SlotScript
