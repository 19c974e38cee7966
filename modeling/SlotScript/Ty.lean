/-! # The static types

Every expression that has a value has one of seven types.  Three of them are
numeric and form a chain `int`, `long`, `double` in which a value widens
upwards without a cast (`Ty.widens`).  A cast may go further: into and out of
`object`, into `string`, and between any two of the numbers and characters
(`Ty.casts`). -/

namespace SlotScript

/-- The static types of the language. -/
inductive Ty where
  | int | long | double | bool | string | char | object
deriving DecidableEq, Repr

namespace Ty

/-- All types, in the order in which they are listed to the user. -/
def all : List Ty := [.int, .long, .double, .bool, .string, .char, .object]

/-- The name a type is written with in a program. -/
def name : Ty → String
  | .int => "int"
  | .long => "long"
  | .double => "double"
  | .bool => "bool"
  | .string => "string"
  | .char => "char"
  | .object => "object"

/-- The type written with a name. -/
def ofName? (s : String) : Option Ty := all.find? (·.name == s)

/-- The position of a numeric type in the widening chain. -/
def rank : Ty → Option Nat
  | .int => some 0
  | .long => some 1
  | .double => some 2
  | _ => none

/-- The types with arithmetic. -/
def isNumeric (t : Ty) : Bool := t.rank.isSome

/-- The types of whole numbers. -/
def isIntegral (t : Ty) : Bool := t == .int || t == .long

/-- A value of the first type is accepted without a cast where the second is
declared: the types are equal, or the first lies below the second in the
widening chain. -/
def widens (source target : Ty) : Bool :=
  source == target ||
    match source.rank, target.rank with
    | some i, some j => i < j
    | _, _ => false

/-- The types whose values are numbers or character codes. -/
def isScalar (t : Ty) : Bool := t.isNumeric || t == .char

/-- A cast from the first type to the second is legal. -/
def casts (source target : Ty) : Bool :=
  source == target || target == .object || source == .object || target == .string ||
    (source.isScalar && target.isScalar)

end Ty

end SlotScript
