import SlotScript.Token.Kind

/-! # Tokens

A token is a piece of source text with its role, the line on which it ends and,
for numbers, strings and characters, the value it denotes. -/

namespace SlotScript

/-- A value that a program can write down. -/
inductive Literal where
  | int (n : Int32)
  | long (n : Int64)
  | double (x : Float)
  | bool (b : Bool)
  | string (s : String)
  | char (c : Char)
  | null
deriving BEq, Repr

namespace Literal

/-- The static type of a literal; `null` is an object. -/
def type : Literal → Ty
  | .int _ => .int
  | .long _ => .long
  | .double _ => .double
  | .bool _ => .bool
  | .string _ => .string
  | .char _ => .char
  | .null => .object

end Literal

/-- A piece of source text with its role. -/
structure Token where
  kind : Token.Kind
  lexeme : String
  line : Nat
  literal : Option Literal := none
deriving BEq, Repr

end SlotScript
