import SlotScript.Lexing.Basic

/-! # Lexical rules

`Segment.Fits names s rest` holds when the segment `s` may stand in front of the
text `rest`.  It has one rule for each form of segment, and a rule looks at `rest`
only as far as its segment could go on there.  A text is cut into segments by
these rules alone (`Segment.Segmented`).

The line ends of a segment are those in its text (`Segment.Fits.lines_eq_count`).
The one exception is a rejected escape in a character literal. -/

namespace SlotScript

namespace Segment

/-! ### Runs of characters -/

/-- The text does not go on with a character of the class. -/
def Stops (p : Char → Bool) (rest : List Char) : Prop := ∀ c ∈ rest.head?, p c = false

section runs

variable {p : Char → Bool} {run rest cs : List Char} {c : Char}

@[simp] theorem stops_nil : Stops p [] := nofun

@[simp] theorem stops_cons : Stops p (c :: cs) ↔ p c = false := by simp [Stops]

theorem stops_dropWhile (p : Char → Bool) (cs : List Char) : Stops p (cs.dropWhile p) := by
  intro c hc
  have hhead := List.head?_dropWhile_not p cs
  rw [Option.mem_def.mp hc] at hhead
  exact hhead

theorem takeWhile_run (hrun : ∀ c ∈ run, p c = true) (hrest : Stops p rest) :
    (run ++ rest).takeWhile p = run := by
  rw [List.takeWhile_append_of_pos hrun]
  cases rest with
  | nil => simp
  | cons c rest => simp [stops_cons.mp hrest]

theorem dropWhile_run (hrun : ∀ c ∈ run, p c = true) (hrest : Stops p rest) :
    (run ++ rest).dropWhile p = rest := by
  rw [List.dropWhile_append_of_pos hrun]
  cases rest with
  | nil => rfl
  | cons c rest => simp [stops_cons.mp hrest]

end runs

/-! ### Classes of text -/

/-- No `*/` closes a comment within the text. -/
def Unclosed (body : List Char) : Prop := ¬ ['*', '/'] <:+: body

/-- The text is one that a cast may name: a built-in type or a registered one. -/
structure TypeName (names : List String) (name : List Char) : Prop where
  word : ∀ c ∈ name, continuesWord c = true
  known : String.ofList name ∈ Ty.all.map Ty.name ++ names

/-- The text between the quotes of a string, what it stands for, and its first
unknown escape. -/
inductive Units : List Char → List Char → Option Char → Prop
  | nil : Units [] [] none
  | plain {c : Char} {cs content : List Char} {bad : Option Char} : c ≠ '"' → c ≠ '\\' →
      Units cs content bad → Units (c :: cs) (c :: content) bad
  | escape {c d : Char} {cs content : List Char} {bad : Option Char} : stringEscape? c = some d →
      Units cs content bad → Units ('\\' :: c :: cs) (d :: content) bad
  | unknown {c : Char} {cs content : List Char} {bad : Option Char} : stringEscape? c = none →
      Units cs content bad → Units ('\\' :: c :: cs) content (some c)

/-- The text between the quotes of a character literal, and what it stands for. -/
inductive CharUnit : List Char → Char → Prop
  | plain {c : Char} : c ≠ '\'' → c ≠ '\\' → CharUnit [c] c
  | escape {c d : Char} : charEscape? c = some d → CharUnit ['\\', c] d

/-- Digits with one point, and at least one digit behind it. -/
inductive PointText : List Char → Prop
  | intro {whole fraction : List Char} : (∀ c ∈ whole, c.isDigit = true) → fraction ≠ [] →
      (∀ c ∈ fraction, c.isDigit = true) → PointText (whole ++ '.' :: fraction)

/-- The text of a number: digits, or digits with a point. -/
inductive NumberText : List Char → Prop
  | whole {digits : List Char} : digits ≠ [] → (∀ c ∈ digits, c.isDigit = true) →
      NumberText digits
  | point {text : List Char} : PointText text → NumberText text

/-- The characters that go on with a number. -/
def continuesNumber (c : Char) : Bool := c == '.' || c.isDigit

/-- The mark is not the start of a comment, of a number or of a cast. -/
structure Alone (names : List String) (mark rest : List Char) : Prop where
  slash : mark = ['/'] → Stops (fun c => c == '/' || c == '*') rest
  point : mark = ['.'] → Stops Char.isDigit rest
  paren : mark = ['('] → ∀ name more, rest = name ++ ')' :: more → ¬ TypeName names name

/-- The mark is the longest one that starts the text. -/
def Longest (mark rest : List Char) : Prop :=
  ∀ entry ∈ Token.Kind.marks, entry.1 <+: mark ++ rest → entry.1.length ≤ mark.length

/-- No rule starts with the character. -/
structure Unknown (c : Char) : Prop where
  special : c ∉ ['\n', ' ', '\r', '\t', '"', '\'']
  digit : c.isDigit = false
  word : startsWord c = false
  mark : ∀ entry ∈ Token.Kind.marks, entry.1.head? ≠ some c

/-! ### The rules -/

/-- The segment may stand in front of the rest of the text. -/
inductive Fits (names : List String) : Segment → List Char → Prop
  | newline (rest : List Char) : Fits names (plain .newline ['\n'] 1) rest
  | blank {c : Char} (rest : List Char) : c = ' ' ∨ c = '\r' ∨ c = '\t' →
      Fits names (plain .blank [c]) rest
  | lineComment {body rest : List Char} : '\n' ∉ body → Stops (· != '\n') rest →
      Fits names (plain .comment ('/' :: '/' :: body)) rest
  | blockComment {body : List Char} (rest : List Char) : Unclosed body →
      Fits names (plain .comment ('/' :: '*' :: (body ++ ['*', '/'])) (body.count '\n')) rest
  | openComment {body : List Char} : Unclosed body →
      Fits names (faulty .unterminatedComment ('/' :: '*' :: body) (body.count '\n')) []
  | cast {name : List Char} (rest : List Char) : TypeName names name →
      Fits names ⟨'(' :: name ++ [')'], .token .typeCast name none, 0⟩ rest
  | string {body content : List Char} (rest : List Char) : Units body content none →
      Fits names
        (valued .string ('"' :: (body ++ ['"'])) (.string (String.ofList content)) (body.count '\n'))
        rest
  | badString {body content : List Char} {c : Char} (rest : List Char) :
      Units body content (some c) →
      Fits names (faulty (.invalidStringEscape c) ('"' :: (body ++ ['"'])) (body.count '\n')) rest
  | openString {body content tail : List Char} {bad : Option Char} : Units body content bad →
      tail = [] ∨ tail = ['\\'] →
      Fits names (faulty .unterminatedString ('"' :: (body ++ tail)) (body.count '\n')) []
  | character {unit : List Char} {value : Char} (rest : List Char) : CharUnit unit value →
      Fits names (valued .character ('\'' :: (unit ++ ['\''])) (.char value) (unit.count '\n')) rest
  | unclosedCharacter {unit rest : List Char} {value : Char} : CharUnit unit value →
      Stops (· == '\'') rest →
      Fits names (faulty .unterminatedCharacter ('\'' :: unit) (unit.count '\n')) rest
  | emptyCharacter (rest : List Char) :
      Fits names (faulty .unterminatedCharacter ['\'', '\'']) rest
  | openCharacter {unit : List Char} : unit = [] ∨ unit = ['\\'] →
      Fits names (faulty .unterminatedCharacter ('\'' :: unit)) []
  | badCharacter {c : Char} (rest : List Char) : charEscape? c = none →
      Fits names (faulty .invalidCharacterEscape ['\'', '\\', c, '\'']) rest
  | unclosedBadCharacter {c : Char} {rest : List Char} : charEscape? c = none →
      Stops (· == '\'') rest → Fits names (faulty .invalidCharacterEscape ['\'', '\\', c]) rest
  | number {text rest : List Char} {value : Literal} : NumberText text →
      Stops continuesNumber rest → Literal.ofNumeral? text = some value →
      Fits names (valued .number text value) rest
  | badNumber {text rest : List Char} : NumberText text → Stops continuesNumber rest →
      Literal.ofNumeral? text = none →
      Fits names (faulty (.invalidNumber (String.ofList text)) text) rest
  | trailingPoint {whole rest : List Char} : whole ≠ [] → (∀ c ∈ whole, c.isDigit = true) →
      Stops Char.isDigit rest → Fits names (faulty .trailingPoint (whole ++ ['.'])) rest
  | multiplePoints {text more rest : List Char} : PointText text →
      (∀ c ∈ more, continuesNumber c = true) → Stops continuesNumber rest →
      Fits names (faulty .multiplePoints (text ++ '.' :: more)) rest
  | word {c : Char} {cs rest : List Char} : startsWord c = true →
      (∀ d ∈ cs, continuesWord d = true) → Stops continuesWord rest →
      Fits names (plain (.ofWord (String.ofList (c :: cs))) (c :: cs)) rest
  | mark {text rest : List Char} {kind : Token.Kind} : (text, kind) ∈ Token.Kind.marks →
      Longest text rest → Alone names text rest → Fits names (plain kind text) rest
  | unknown {c : Char} (rest : List Char) : Unknown c →
      Fits names (faulty (.unexpectedCharacter c) [c]) rest

/-! ### Line ends -/

theorem count_cons_lineEnd (c : Char) (cs : List Char) :
    (c :: cs).count '\n' = lineEnd c + cs.count '\n' := by
  rw [List.count_cons, lineEnd, Nat.add_comm]
  by_cases hc : c = '\n'
  · simp [hc]
  · simp [hc]

/-- No character of a class that leaves out line ends is one. -/
theorem count_of_class {p : Char → Bool} (hp : p '\n' = false) {cs : List Char}
    (hcs : ∀ c ∈ cs, p c = true) : cs.count '\n' = 0 := by
  rw [List.count_eq_zero]
  intro hmem
  rw [hcs _ hmem] at hp
  cases hp

theorem PointText.count {text : List Char} (h : PointText text) : text.count '\n' = 0 := by
  obtain ⟨hwhole, -, hfraction⟩ := h
  rw [List.count_append, List.count_cons, count_of_class rfl hwhole, count_of_class rfl hfraction]
  rfl

theorem NumberText.count {text : List Char} (h : NumberText text) : text.count '\n' = 0 := by
  cases h with
  | whole _ hdigits => exact count_of_class rfl hdigits
  | point hpoint => exact hpoint.count

/-- A segment passes the line ends in its text, unless it is an escape that is
rejected. -/
theorem Fits.lines_eq_count {names : List String} {s : Segment} {rest : List Char}
    (h : Fits names s rest) (hs : s.meaning ≠ .fault .invalidCharacterEscape) :
    s.lines = s.text.count '\n' := by
  cases h with
  | newline => rfl
  | blank _ hc => rcases hc with rfl | rfl | rfl <;> rfl
  | lineComment hbody => simp [plain, List.count_eq_zero.mpr hbody]
  | blockComment | openComment | string | badString | character | unclosedCharacter =>
      simp [plain, valued, faulty]
  | openString _ htail => rcases htail with rfl | rfl <;> simp [faulty]
  | cast _ hname => simp [count_of_class rfl hname.word]
  | emptyCharacter => rfl
  | openCharacter hunit => rcases hunit with rfl | rfl <;> rfl
  | badCharacter | unclosedBadCharacter => exact absurd rfl hs
  | number htext | badNumber htext => exact htext.count.symm
  | trailingPoint _ hwhole => simp [faulty, count_of_class rfl hwhole]
  | multiplePoints htext hmore => simp [faulty, htext.count, count_of_class rfl hmore]
  | @word c cs _ hc hcs =>
      have hfirst : [c].count '\n' = 0 := count_of_class rfl (List.forall_mem_singleton.mpr hc)
      show 0 = ([c] ++ cs).count '\n'
      rw [List.count_append, hfirst, count_of_class rfl hcs]
  | mark hmark =>
      have hmarks : ∀ entry ∈ Token.Kind.marks, entry.1.count '\n' = 0 := by decide
      exact (hmarks _ hmark).symm
  | @unknown c _ hc =>
      have hne : c ≠ '\n' := by
        rintro rfl
        exact hc.special List.mem_cons_self
      simp [faulty, hne]

/-- The segments that the rules give for a text. -/
inductive Segmented (names : List String) : List Char → List Segment → Prop
  | nil : Segmented names [] []
  | cons {s : Segment} {rest : List Char} {segments : List Segment} : Fits names s rest →
      Segmented names rest segments → Segmented names (s.text ++ rest) (s :: segments)

end Segment

end SlotScript
