import SlotScript.Value.Basic

/-! # Casts

A value is turned into one of another type.  Everything is an object as it is.
Numbers and characters turn into each other: a `long` loses its high bits in an
`int`, a double is cut towards zero and held within the range of the target, and
a number is a character only if it is the code of one.  All values that have a
text turn into strings.  Anything else has to be of the target type already. -/

namespace SlotScript

/-- The character with a code. -/
def charOfCode (code : Int) : Except ValueFault Char :=
  if 0 ≤ code ∧ code.toNat.isValidChar then .ok (Char.ofNat code.toNat)
  else .error (.invalidCharacterCode code)

namespace Value

/-- The value as an `int`. -/
def toInt? : Value → Option Int32
  | .int n => some n
  | .long n => some n.toInt32
  | .double x => some x.toInt32
  | .char c => some (Int32.ofNat c.toNat)
  | _ => none

/-- The value as a `long`. -/
def toLong? : Value → Option Int64
  | .int n => some n.toInt64
  | .long n => some n
  | .double x => some x.toInt64
  | .char c => some (Int64.ofNat c.toNat)
  | _ => none

/-- The value as a `double`. -/
def toDouble? : Value → Option Float
  | .int n => some n.toInt64.toFloat
  | .long n => some n.toFloat
  | .double x => some x
  | .char c => some (Float.ofNat c.toNat)
  | _ => none

/-- The value as a value of type `target`. -/
def cast (v : Value) (target : Ty) : Except ValueFault Value :=
  let refused : ValueFault := .invalidCast v.tag target
  match target with
  | .object => .ok v
  | .string =>
    match v with
    | .null => .ok .null
    | .unit => .error refused
    | v => .ok (.string v.text)
  | .int => (v.toInt?.map .int).elim (.error refused) .ok
  | .long => (v.toLong?.map .long).elim (.error refused) .ok
  | .double => (v.toDouble?.map .double).elim (.error refused) .ok
  | .char =>
    match v with
    | .char c => .ok (.char c)
    | v => v.toLong?.elim (.error refused) fun n => (charOfCode n.toInt).map .char
  | .bool =>
    match v with
    | .bool b => .ok (.bool b)
    | _ => .error refused

end Value

end SlotScript
