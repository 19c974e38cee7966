import SlotScript.Expr
import SlotScript.Operator

/-! # Values

What a running program computes with.  Besides the values of the static types
there are `null`, which strings and objects start as, and `unit`, the result of
code that has no value. -/

namespace SlotScript

/-- A value of a running program. -/
inductive Value where
  | int (n : Int32)
  | long (n : Int64)
  | double (x : Float)
  | bool (b : Bool)
  | string (s : String)
  | char (c : Char)
  | null
  | unit
deriving BEq, Repr

/-- The tag of a value. -/
inductive Value.Tag where
  | int | long | double | bool | string | char | null | unit
deriving DecidableEq, Repr

namespace Value

/-- The name that values with a tag are known by. -/
def Tag.name : Value.Tag → String
  | .int => "int"
  | .long => "long"
  | .double => "double"
  | .bool => "bool"
  | .string => "string"
  | .char => "char"
  | .null => "null"
  | .unit => "void"

/-- The tag that a value carries. -/
def tag : Value → Value.Tag
  | .int _ => .int
  | .long _ => .long
  | .double _ => .double
  | .bool _ => .bool
  | .string _ => .string
  | .char _ => .char
  | .null => .null
  | .unit => .unit

/-- A value as it is printed; `null` and `unit` print nothing. -/
def text : Value → String
  | .int n => n.toInt.repr
  | .long n => n.toInt.repr
  | .double x => Double.text x
  | .bool b => boolText b
  | .string s => s
  | .char c => String.singleton c
  | .null | .unit => ""

/-- The value that a variable of a type starts with. -/
def default : Ty → Value
  | .int => .int 0
  | .long => .long 0
  | .double => .double 0.0
  | .bool => .bool false
  | .char => .char '\x00'
  | .string | .object => .null

end Value

/-- The value that a literal denotes. -/
def Literal.value : Literal → Value
  | .int n => .int n
  | .long n => .long n
  | .double x => .double x
  | .bool b => .bool b
  | .string s => .string s
  | .char c => .char c
  | .null => .null

/-- A reason why an operation on values has no result. -/
inductive ValueFault where
  | divisionByZero
  | overflow
  | undefinedBinary (op : BinaryOp) (left right : Value.Tag)
  | undefinedUnary (op : UnaryOp) (operand : Value.Tag)
  | invalidCast (source : Value.Tag) (target : Ty)
  | invalidCharacterCode (code : Int)
  | invalidArguments (builtin : Builtin) (arguments : List Value.Tag)
deriving DecidableEq, Repr

namespace ValueFault

/-- The fault as it is shown to the user. -/
def message : ValueFault → String
  | .divisionByZero => "Attempted to divide by zero."
  | .overflow => "Arithmetic operation resulted in an overflow."
  | .undefinedBinary op left right =>
    "Operator " ++ op.symbol ++ " is not defined for " ++ left.name ++ " and " ++ right.name ++ "."
  | .undefinedUnary op operand =>
    "Operator " ++ op.symbol ++ " is not defined for " ++ operand.name ++ "."
  | .invalidCast source target =>
    "Unable to cast value of type '" ++ source.name ++ "' to type '" ++ target.name ++ "'."
  | .invalidCharacterCode code => code.repr ++ " is not a valid character code."
  | .invalidArguments builtin arguments =>
    "Invalid arguments to " ++ builtin.name ++ ": " ++
      ", ".intercalate (arguments.map Value.Tag.name)

end ValueFault

end SlotScript
