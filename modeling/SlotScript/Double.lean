import SlotScript.Decimal.Shortest

/-! # Doubles

Double-precision numbers as the language shows and divides them.  `Double.text`
writes the fewest digits that read back as the same number, never with an
exponent.  `Double.remainder` is exact: it keeps the sign of the dividend and is
computed on the binary fractions themselves. -/

namespace SlotScript.Double

/-- The bits of a double without its sign. -/
def magnitudeBits (x : Float) : Nat := x.toBits.toNat % Nat.pow 2 63

/-- The sign bit is set. -/
def isNegative (x : Float) : Bool := Nat.pow 2 63 ≤ x.toBits.toNat

/-- The absolute value of a finite double that is not zero. -/
def binary (x : Float) : Binary :=
  let field : Nat := magnitudeBits x / Nat.pow 2 52
  let fraction : Nat := magnitudeBits x % Nat.pow 2 52
  if field = 0 then ⟨fraction, -1074, false⟩
  else ⟨Nat.pow 2 52 + fraction, (field : Int) - 1075, fraction = 0 && 1 < field⟩

/-- A double as it is shown to the user. -/
def text (x : Float) : String :=
  if x.isNaN then "NaN"
  else
    let sign := if isNegative x then "-" else ""
    if x.isInf then sign ++ "inf"
    else if magnitudeBits x = 0 then sign ++ "0"
    else sign ++ (binary x).shortest.text

/-- The remainder of `m · 2 ^ p` by `n · 2 ^ q`, as a fraction over `2 ^ min p q`. -/
def binaryRemainder (a b : Binary) : Nat :=
  let base := min a.exponent b.exponent
  (a.mantissa * Nat.pow 2 (a.exponent - base).toNat) %
    (b.mantissa * Nat.pow 2 (b.exponent - base).toNat)

/-- What is left of `x` after the whole multiples of `y`, with the sign of `x`.
There is none when `x` is infinite or `y` is zero; an infinite `y` leaves `x`. -/
def remainder (x y : Float) : Float :=
  if x.isNaN || y.isNaN || x.isInf || magnitudeBits y = 0 then 0.0 / 0.0
  else if y.isInf || magnitudeBits x = 0 then x
  else
    let a := binary x
    let b := binary y
    let r := Float.scaleB (Float.ofNat (binaryRemainder a b)) (min a.exponent b.exponent)
    if isNegative x then -r else r

end SlotScript.Double
