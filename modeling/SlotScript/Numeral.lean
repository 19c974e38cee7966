import SlotScript.Token.Basic

/-! # Numerals

The text of a number denotes the narrowest literal that holds it: an `int`, else
a `long`, else a `double`.  Whole numbers are an optional sign and digits
(`Numeral.whole?`).  A double may also have a point, with digits on at least one
side, and a decimal exponent, or be one of the words for infinity and for no
number (`Numeral.real?`). -/

namespace SlotScript

namespace Numeral

/-- The number that a run of decimal digits denotes. -/
def value (ds : List Char) : Nat :=
  ds.foldl (fun n d => 10 * n + (d.toNat - '0'.toNat)) 0

/-- A leading sign, and what follows it. -/
def sign : List Char → Bool × List Char
  | '+' :: cs => (false, cs)
  | '-' :: cs => (true, cs)
  | cs => (false, cs)

/-- A whole number: an optional sign, then digits only, at least one. -/
def whole? (cs : List Char) : Option Int :=
  let (negative, ds) := sign cs
  if ds.isEmpty || !ds.all Char.isDigit then none
  else some (if negative then -(value ds : Int) else value ds)

/-- The exponent of a decimal: nothing, or `e` and a whole number. -/
def exponent? : List Char → Option Int
  | [] => some 0
  | c :: cs => if c = 'e' || c = 'E' then whole? cs else none

/-- An unsigned decimal `m · 10 ^ e`, given as `m` and `e`. -/
def decimal? (cs : List Char) : Option (Nat × Int) :=
  let integer := cs.takeWhile Char.isDigit
  let afterInteger := cs.dropWhile Char.isDigit
  let (fraction, afterFraction) :=
    match afterInteger with
    | '.' :: rest => (rest.takeWhile Char.isDigit, rest.dropWhile Char.isDigit)
    | rest => ([], rest)
  if integer.isEmpty && fraction.isEmpty then none
  else
    (exponent? afterFraction).map fun e =>
      (value (integer ++ fraction), e - (fraction.length : Int))

/-- The double nearest to `m · 10 ^ e`.  Far outside the range of doubles the
answer is known from the number of digits alone. -/
def nearest (m : Nat) (e : Int) : Float :=
  let size : Int := (Nat.toDigits 10 m).length + e
  if m = 0 || size < -400 then 0.0
  else if 400 < size then 1.0 / 0.0
  else
    match e with
    | .ofNat n => Float.ofScientific m false n
    | .negSucc n => Float.ofScientific m true (n + 1)

/-- A double without its sign. -/
def unsignedReal? (cs : List Char) : Option Float :=
  let word := cs.map Char.toLower
  if word = "inf".toList || word = "infinity".toList then some (1.0 / 0.0)
  else if word = "nan".toList then some (0.0 / 0.0)
  else (decimal? cs).map fun (m, e) => nearest m e

/-- A double. -/
def real? (cs : List Char) : Option Float :=
  let (negative, rest) := sign cs
  (unsignedReal? rest).map fun x => if negative then -x else x

end Numeral

namespace Literal

/-- The narrowest literal that holds the number written in `cs`. -/
def ofNumeral? (cs : List Char) : Option Literal :=
  match Numeral.whole? cs with
  | some n =>
    if Int32.minValue.toInt ≤ n ∧ n ≤ Int32.maxValue.toInt then some (.int (Int32.ofInt n))
    else if Int64.minValue.toInt ≤ n ∧ n ≤ Int64.maxValue.toInt then some (.long (Int64.ofInt n))
    else (Numeral.real? cs).map .double
  | none => (Numeral.real? cs).map .double

end Literal

end SlotScript
