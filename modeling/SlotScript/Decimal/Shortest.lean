/-! # Shortest decimals

A binary fraction `m · 2 ^ q` stands for every real that rounds to it.
`Binary.shortest` finds the decimal with the fewest digits among those reals:
it tries decimal grids from coarse to fine, and on each grid only the two
points next to the value, since a grid that meets the interval at all meets it
in one of them.  Of two such points the nearer is taken, and the upper one when
both are equally near.  All arithmetic is exact. -/

namespace SlotScript

/-- The decimal number `digits · 10 ^ exponent`. -/
structure Decimal where
  digits : Nat
  exponent : Int
deriving DecidableEq, Repr

/-- The positive binary fraction `mantissa · 2 ^ exponent`.  The reals that
round to it reach half a unit upwards, and downwards half a unit or, where the
next lower fraction is nearer (`narrow`), a quarter. -/
structure Binary where
  mantissa : Nat
  exponent : Int
  narrow : Bool
deriving DecidableEq, Repr

namespace Binary

/-- The number of decimal digits of a natural number; zero has none. -/
def digitCount (n : Nat) : Nat := if n = 0 then 0 else (Nat.toDigits 10 n).length

/-- The fraction as a quotient: four times the value has this numerator over
`quarter`. -/
def scaled (b : Binary) (quarters : Nat) : Nat := quarters * Nat.pow 2 b.exponent.toNat

/-- The denominator that goes with `scaled`. -/
def quarter (b : Binary) : Nat := 4 * Nat.pow 2 (-b.exponent).toNat

/-- A power of ten that is at least the value, and at most ten times it. -/
def magnitude (b : Binary) : Int :=
  let num := b.scaled (4 * b.mantissa)
  let den := b.quarter
  if den ≤ num then (digitCount (num / den) : Int)
  else 1 - (digitCount (den / num) : Int)

/-- The best point on the grid of multiples of `10 ^ k`, if one rounds to the
value. -/
def onGrid (b : Binary) (k : Int) : Option Decimal :=
  let up := Nat.pow 10 (-k).toNat
  let den := b.quarter * Nat.pow 10 k.toNat
  let num := b.scaled (4 * b.mantissa) * up
  let low := b.scaled (4 * b.mantissa - if b.narrow then 1 else 2) * up
  let high := b.scaled (4 * b.mantissa + 2) * up
  let rounds (d : Nat) : Bool :=
    if b.mantissa % 2 = 0 then low ≤ d * den && d * den ≤ high
    else low < d * den && d * den < high
  let below := num / den
  let above := below + 1
  match rounds below, rounds above with
  | true, true =>
    if num - below * den < above * den - num then some ⟨below, k⟩ else some ⟨above, k⟩
  | true, false => some ⟨below, k⟩
  | false, true => some ⟨above, k⟩
  | false, false => none

/-- The decimal with the fewest digits that rounds to the value.  Seventeen
digits always suffice. -/
def shortest (b : Binary) : Decimal :=
  ((List.range 18).findSome? fun i => b.onGrid (b.magnitude - (i : Nat))).getD ⟨b.mantissa, 0⟩

end Binary

namespace Decimal

/-- The decimal written out without an exponent. -/
def text (d : Decimal) : String :=
  let ds := Nat.toDigits 10 d.digits
  match d.exponent with
  | .ofNat zeros => String.ofList (ds ++ List.replicate zeros '0')
  | .negSucc n =>
    let places := n + 1
    let padded := List.replicate (places + 1 - ds.length) '0' ++ ds
    String.ofList
      (padded.take (padded.length - places) ++ '.' :: padded.drop (padded.length - places))

end Decimal

end SlotScript
