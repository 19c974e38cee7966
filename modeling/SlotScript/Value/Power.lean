import SlotScript.Value.Basic

/-! # Powers and concatenation

`power` squares and multiplies, so it takes as many steps as the exponent has
bits.  A whole number raised to a negative exponent is a fraction cut towards
zero: nothing is left of it unless the base is one or minus one. -/

namespace SlotScript

/-- The product of `n` factors `b`. -/
def power {α : Type} [Mul α] [OfNat α 1] (b : α) (n : Nat) : α :=
  if n = 0 then 1
  else if n % 2 = 1 then b * power (b * b) (n / 2)
  else power (b * b) (n / 2)
termination_by n
decreasing_by all_goals omega

/-- A power of an `int`, wrapped around at its width. -/
def intPower (base exponent : Int32) : Int32 :=
  if 0 ≤ exponent then power base exponent.toInt.toNat
  else if base = 1 then 1
  else if base = -1 then (if exponent % 2 = 0 then 1 else -1)
  else 0

/-- A power of a `long`, wrapped around at its width. -/
def longPower (base exponent : Int64) : Int64 :=
  if 0 ≤ exponent then power base exponent.toInt.toNat
  else if base = 1 then 1
  else if base = -1 then (if exponent % 2 = 0 then 1 else -1)
  else 0

namespace Builtin

/-- The builtin on its arguments. -/
def onValues (h : Builtin) (arguments : List Value) : Except ValueFault Value :=
  match h, arguments with
  | .intPower, [.int base, .int exponent] => .ok (.int (SlotScript.intPower base exponent))
  | .longPower, [.long base, .long exponent] => .ok (.long (SlotScript.longPower base exponent))
  | .doublePower, [.double base, .double exponent] => .ok (.double (base.pow exponent))
  | .concat, [left, right] => .ok (.string (left.text ++ right.text))
  | _, _ => .error (.invalidArguments h (arguments.map Value.tag))

end Builtin

end SlotScript
