import SlotScript.Lexing.Fault
import SlotScript.Numeral

/-! # Segments of the source text

The source is cut into segments, each read off the front of what remains.  A
segment is a token, text to be dropped, or a fault, and it is never empty, so
cutting ends (`Segment.ofChars`).

* A comment runs from `//` up to the line's end, or from `/*` through the first
  `*/` behind it.
* A parenthesised type name is a cast.
* A number is digits, optionally with one point and digits behind it; a point
  may also come first.
* A string runs to the first quote that no backslash escapes.
* A word is a letter or underscore with the letters, digits and underscores
  behind it.
* Everything else is an operator or a punctuation mark, the longest that
  matches, or a character that starts nothing.

Line ends are counted by those who read them: a line end on its own, each one in a
comment between `/*` and `*/` and in a string, and one that is a character literal.
An escape in a character literal is read without a look at line ends. -/

namespace SlotScript

/-- What a segment stands for. -/
inductive Segment.Meaning where
  | token (kind : Token.Kind) (lexeme : List Char) (literal : Option Literal)
  | fault (fault : LexFault)

/-- A piece of source text with its meaning, and how many line ends were counted
while it was read. -/
structure Segment where
  text : List Char
  meaning : Segment.Meaning
  lines : Nat

namespace Segment

/-! ### Characters of words -/

/-- The characters that start a word. -/
def startsWord (c : Char) : Bool := c.isAlpha || c == '_'

/-- The characters that continue a word. -/
def continuesWord (c : Char) : Bool := c.isAlphanum || c == '_'

/-- A segment that is its own lexeme. -/
def plain (kind : Token.Kind) (text : List Char) (lines : Nat := 0) : Segment :=
  ⟨text, .token kind text none, lines⟩

/-- A segment that denotes a value. -/
def valued (kind : Token.Kind) (text : List Char) (value : Literal) (lines : Nat := 0) : Segment :=
  ⟨text, .token kind text (some value), lines⟩

/-- A segment that is wrong. -/
def faulty (fault : LexFault) (text : List Char) (lines : Nat := 0) : Segment :=
  ⟨text, .fault fault, lines⟩

/-- What a character adds to the line ends that are counted. -/
def lineEnd (c : Char) : Nat := if c = '\n' then 1 else 0

/-! ### Comments -/

/-- What a comment holds, read behind its `/*`. -/
structure Commented where
  text : List Char
  lines : Nat
  closed : Bool

namespace Commented

/-- One more character in front. -/
def cons (c : Char) (r : Commented) : Commented :=
  { r with text := c :: r.text, lines := lineEnd c + r.lines }

/-- Reads through the first `*/`. -/
def read : List Char → Commented
  | [] => ⟨[], 0, false⟩
  | '*' :: '/' :: _ => ⟨['*', '/'], 0, true⟩
  | c :: cs => cons c (read cs)

end Commented

/-- A comment between `/*` and `*/`; `cs` is what follows the opening. -/
def blockComment (cs : List Char) : Segment :=
  let r := Commented.read cs
  let text := '/' :: '*' :: r.text
  if r.closed then plain .comment text r.lines else faulty .unterminatedComment text r.lines

/-- A comment up to the end of its line; `cs` is what follows the slashes. -/
def lineComment (cs : List Char) : Segment :=
  plain .comment ('/' :: '/' :: cs.takeWhile (· != '\n'))

/-! ### Strings and characters -/

/-- The character that a backslash and `c` stand for in a string. -/
def stringEscape? : Char → Option Char
  | 'n' => some '\n'
  | 't' => some '\t'
  | 'r' => some '\r'
  | '0' => some '\x00'
  | '"' => some '"'
  | '\'' => some '\''
  | '\\' => some '\\'
  | _ => none

/-- The character that a backslash and `c` stand for in a character literal. -/
def charEscape? (c : Char) : Option Char := if c = '"' then none else stringEscape? c

/-- What a string literal holds, read behind its opening quote. -/
structure Quoted where
  text : List Char
  content : List Char
  lines : Nat
  badEscape : Option Char
  closed : Bool

namespace Quoted

/-- One more character in front, which stands for itself. -/
def cons (c : Char) (q : Quoted) : Quoted :=
  { q with text := c :: q.text, content := c :: q.content, lines := lineEnd c + q.lines }

/-- A backslash and `c` in front.  The first unknown escape is kept. -/
def escape (c : Char) (q : Quoted) : Quoted :=
  match stringEscape? c with
  | some d => { q with text := '\\' :: c :: q.text, content := d :: q.content }
  | none =>
    { q with text := '\\' :: c :: q.text, lines := lineEnd c + q.lines, badEscape := some c }

/-- Reads up to and including the closing quote. -/
def read : List Char → Quoted
  | [] => ⟨[], [], 0, none, false⟩
  | '"' :: _ => ⟨['"'], [], 0, none, true⟩
  | '\\' :: c :: cs => escape c (read cs)
  | c :: cs => cons c (read cs)

end Quoted

/-- A string; `cs` is what follows its opening quote. -/
def string (cs : List Char) : Segment :=
  let q := Quoted.read cs
  let text := '"' :: q.text
  if !q.closed then faulty .unterminatedString text q.lines
  else
    match q.badEscape with
    | some c => faulty (.invalidStringEscape c) text q.lines
    | none => valued .string text (.string (String.ofList q.content)) q.lines

/-- A character literal that denotes `value`, once its closing quote is there;
`text` is what was read so far, with its line ends. -/
def closeCharacter (text : List Char) (lines : Nat) (value : Char) : List Char → Segment
  | '\'' :: _ => valued .character (text ++ ['\'']) (.char value) lines
  | _ => faulty .unterminatedCharacter text lines

/-- A character literal; `cs` is what follows its opening quote. -/
def character : List Char → Segment
  | [] => faulty .unterminatedCharacter ['\'']
  | '\'' :: _ => faulty .unterminatedCharacter ['\'', '\'']
  | '\\' :: [] => faulty .unterminatedCharacter ['\'', '\\']
  | '\\' :: c :: cs =>
    match charEscape? c with
    | some d => closeCharacter ['\'', '\\', c] 0 d cs
    | none =>
      match cs with
      | '\'' :: _ => faulty .invalidCharacterEscape ['\'', '\\', c, '\'']
      | _ => faulty .invalidCharacterEscape ['\'', '\\', c]
  | c :: cs => closeCharacter ['\'', c] (lineEnd c) c cs

/-! ### Numbers -/

/-- A number once its digits and point are read; `cs` is what follows.  A
further point spoils it, with all points and digits behind. -/
def closeNumber (text cs : List Char) : Segment :=
  match cs with
  | '.' :: _ => faulty .multiplePoints (text ++ cs.takeWhile fun c => c == '.' || c.isDigit)
  | _ =>
    match Literal.ofNumeral? text with
    | some value => valued .number text value
    | none => faulty (.invalidNumber (String.ofList text)) text

/-- A number that starts with the digit `d`; `cs` is what follows. -/
def number (d : Char) (cs : List Char) : Segment :=
  let whole := d :: cs.takeWhile Char.isDigit
  match cs.dropWhile Char.isDigit with
  | '.' :: rest =>
    let fraction := rest.takeWhile Char.isDigit
    if fraction.isEmpty then faulty .trailingPoint (whole ++ ['.'])
    else closeNumber (whole ++ '.' :: fraction) (rest.dropWhile Char.isDigit)
  | rest => closeNumber whole rest

/-- A number that starts with a point; `cs` is what follows the point. -/
def pointNumber (cs : List Char) : Segment :=
  closeNumber ('.' :: cs.takeWhile Char.isDigit) (cs.dropWhile Char.isDigit)

/-! ### Words and marks -/

/-- A word that starts with `c`; `cs` is what follows. -/
def word (c : Char) (cs : List Char) : Segment :=
  let text := c :: cs.takeWhile continuesWord
  plain (.ofWord (String.ofList text)) text

/-- The type name of a cast, if `cs`, which follows an opening parenthesis,
starts with one and a closing parenthesis.  Besides the built-in types the
`names` are known. -/
def castName? (names : List String) (cs : List Char) : Option (List Char) :=
  let run := cs.takeWhile continuesWord
  match cs.dropWhile continuesWord with
  | ')' :: _ =>
    if (Ty.ofName? (String.ofList run)).isSome || names.contains (String.ofList run) then some run
    else none
  | _ => none

/-- An operator, a punctuation mark, or a character that starts nothing. -/
def mark (c : Char) (cs : List Char) : Segment :=
  match Token.Kind.marks.find? (·.1.isPrefixOf (c :: cs)) with
  | some (text, kind) => plain kind text
  | none => faulty (.unexpectedCharacter c) [c]

/-- An opening parenthesis, alone or as part of a cast. -/
def paren (names : List String) (cs : List Char) : Segment :=
  match castName? names cs with
  | some name => ⟨'(' :: name ++ [')'], .token .typeCast name none, 0⟩
  | none => plain .leftParen ['(']

/-! ### Cutting -/

/-- The first segment of `c :: cs`. -/
def cut (names : List String) (c : Char) (cs : List Char) : Segment :=
  match c, cs with
  | '/', '/' :: rest => lineComment rest
  | '/', '*' :: rest => blockComment rest
  | '(', _ => paren names cs
  | '"', _ => string cs
  | '\'', _ => character cs
  | '\n', _ => plain .newline ['\n'] 1
  | _, _ =>
    if c == ' ' || c == '\r' || c == '\t' then plain .blank [c]
    else if c.isDigit then number c cs
    else if c == '.' && cs.head?.any Char.isDigit then pointNumber cs
    else if startsWord c then word c cs
    else mark c cs

/-- The segments of a text, in order. -/
def ofChars (names : List String) : List Char → List Segment
  | [] => []
  | c :: cs =>
    let s := cut names c cs
    s :: ofChars names (cs.drop (s.text.length - 1))
termination_by cs => cs.length
decreasing_by simp only [List.length_drop, List.length_cons]; omega

end Segment

end SlotScript
