import Mathlib.Data.Nat.Digits.Defs
import SlotScript.Proofs.Faults

/-! # Number literals

A whole number is written as an optional sign and digits (`SignedText`).  Whatever its length,
it denotes the narrowest literal that holds it: an `int` or a `long` with exactly its value,
else a double (`Narrowest`).  Numbers are shown as such a text, so what is shown
denotes the number again.

In a source text a number is written in one of three forms (`NumberForm`), and every text of
these forms denotes a literal, so a number that was cut off is never refused (`NumbersRead`).  The
main statement is `numerals_narrowest`. -/

namespace SlotScript

/-! ### Written numbers -/

/-- The text is made of decimal digits, at least one. -/
structure IsDigits (ds : List Char) : Prop where
  nonempty : ds ≠ []
  digits : ∀ d ∈ ds, d.isDigit = true

/-- The number that digits denote, by the places they stand at. -/
def placeValue (ds : List Char) : Nat :=
  Nat.ofDigits 10 (ds.map fun d => d.toNat - '0'.toNat).reverse

/-- The text is an optional sign with digits, and denotes the number. -/
inductive SignedText : List Char → Int → Prop
  | bare {ds : List Char} : IsDigits ds → SignedText ds (placeValue ds)
  | plus {ds : List Char} : IsDigits ds → SignedText ('+' :: ds) (placeValue ds)
  | minus {ds : List Char} : IsDigits ds → SignedText ('-' :: ds) (-(placeValue ds : Int))

/-- The forms in which a number is written in a source text. -/
inductive NumberForm : List Char → Prop
  | whole {ds : List Char} : IsDigits ds → NumberForm ds
  | pointed {ds fs : List Char} : IsDigits ds → IsDigits fs → NumberForm (ds ++ '.' :: fs)
  | fraction {fs : List Char} : IsDigits fs → NumberForm ('.' :: fs)

/-- The number is a signed number of `w` bits. -/
def InWidth (w : Nat) (v : Int) : Prop := -2 ^ (w - 1) ≤ v ∧ v < 2 ^ (w - 1)

instance (w : Nat) (v : Int) : Decidable (InWidth w v) :=
  inferInstanceAs (Decidable (-2 ^ (w - 1) ≤ v ∧ v < 2 ^ (w - 1)))

/-- The text denotes the narrowest literal that holds the number. -/
structure Narrowest (text : List Char) (v : Int) : Prop where
  int : (∃ n, Literal.ofNumeral? text = some (.int n) ∧ n.toInt = v) ↔ InWidth 32 v
  long : (∃ n, Literal.ofNumeral? text = some (.long n) ∧ n.toInt = v) ↔
    InWidth 64 v ∧ ¬ InWidth 32 v
  double : (∃ x, Literal.ofNumeral? text = some (.double x)) ↔ ¬ InWidth 64 v

/-- What reading a source text makes of the numbers in it. -/
structure NumbersRead (names : List String) (source : String) : Prop where
  form : ∀ t ∈ (lex names source).tokens, t.kind = .number → NumberForm t.lexeme.toList
  value : ∀ t ∈ (lex names source).tokens, t.kind = .number →
    t.literal = Literal.ofNumeral? t.lexeme.toList
  pointed : ∀ t ∈ (lex names source).tokens, t.kind = .number → '.' ∈ t.lexeme.toList →
    ∃ x, t.literal = some (.double x)
  accepted : ∀ d ∈ (lex names source).diagnostics, ∀ text,
    d.message ≠ (LexFault.invalidNumber text).message

namespace Numeral

/-! ### Whole numbers -/

theorem value_eq_placeValue (ds : List Char) : value ds = placeValue ds := by
  have hstep : (fun (n : Nat) (d : Char) => 10 * n + (d.toNat - '0'.toNat)) =
      fun n d => (d.toNat - '0'.toNat) + 10 * n := by
    funext n d
    exact Nat.add_comm _ _
  -- The digits are folded from the left, while the places are counted from the right.
  rw [value, placeValue, Nat.ofDigits_eq_foldr, List.foldr_reverse, List.foldl_map, hstep]
  rfl

/-- A text that starts with a digit or a point has no sign. -/
theorem sign_of_form {text : List Char} (h : NumberForm text) : sign text = (false, text) := by
  have hother : ∀ c cs, c.isDigit = true ∨ c = '.' → sign (c :: cs) = (false, c :: cs) := by
    intro c cs hc
    rw [sign.eq_3]
    · intro ds hds
      obtain ⟨rfl, _⟩ := List.cons.inj hds
      exact absurd hc (by decide)
    · intro ds hds
      obtain ⟨rfl, _⟩ := List.cons.inj hds
      exact absurd hc (by decide)
  cases h with
  | whole hds =>
      obtain ⟨d, ds, rfl⟩ := List.exists_cons_of_ne_nil hds.nonempty
      exact hother d ds (.inl (hds.digits d List.mem_cons_self))
  | pointed hds =>
      obtain ⟨d, ds, rfl⟩ := List.exists_cons_of_ne_nil hds.nonempty
      exact hother d _ (.inl (hds.digits d List.mem_cons_self))
  | @fraction fs => exact hother '.' fs (.inr rfl)

theorem whole_of_sign {cs ds : List Char} {negative : Bool} (hsign : sign cs = (negative, ds))
    (h : IsDigits ds) :
    whole? cs = some (if negative then -(placeValue ds : Int) else placeValue ds) := by
  have hempty : ds.isEmpty = false := by
    rw [List.isEmpty_eq_false_iff]
    exact h.nonempty
  have hall : ds.all Char.isDigit = true := List.all_eq_true.mpr h.digits
  rw [whole?, hsign]
  simp only [hempty, hall, value_eq_placeValue]
  rfl

theorem whole_of_signedText {text : List Char} {v : Int} (h : SignedText text v) :
    whole? text = some v := by
  cases h with
  | bare hdigits => exact whole_of_sign (sign_of_form (.whole hdigits)) hdigits
  | plus hdigits => exact whole_of_sign rfl hdigits
  | minus hdigits => exact whole_of_sign rfl hdigits

/-- A point is no part of a whole number. -/
theorem whole_of_point {text : List Char} (h : '.' ∈ text) : whole? text = none := by
  have hrest : '.' ∈ (sign text).2 := by
    unfold sign
    split
    · simpa using h
    · simpa using h
    · exact h
  have hall : ((sign text).2.all Char.isDigit) = false := by
    rw [List.all_eq_false]
    exact ⟨'.', hrest, by decide⟩
  rw [whole?]
  simp [hall]

/-! ### Doubles -/

theorem run_of_digits {ds : List Char} (h : IsDigits ds) :
    ds.takeWhile Char.isDigit = ds ∧ ds.dropWhile Char.isDigit = [] := by
  have htake := Segment.takeWhile_run h.digits Segment.stops_nil
  have hdrop := Segment.dropWhile_run h.digits Segment.stops_nil
  rw [List.append_nil] at htake hdrop
  exact ⟨htake, hdrop⟩

theorem decimal_of_point {ds fs : List Char} (hds : ∀ d ∈ ds, d.isDigit = true)
    (hfs : IsDigits fs) : (decimal? (ds ++ '.' :: fs)).isSome = true := by
  have hstop : Segment.Stops Char.isDigit ('.' :: fs) := Segment.stops_cons.mpr rfl
  obtain ⟨htake, hdrop⟩ := run_of_digits hfs
  rw [decimal?, Segment.takeWhile_run hds hstop, Segment.dropWhile_run hds hstop]
  simp [htake, hdrop, hfs.nonempty, exponent?]

theorem decimal_of_form {text : List Char} (h : NumberForm text) :
    (decimal? text).isSome = true := by
  cases h with
  | whole hds =>
      obtain ⟨htake, hdrop⟩ := run_of_digits hds
      rw [decimal?, htake, hdrop]
      simp [hds.nonempty, exponent?]
  | pointed hds hfs => exact decimal_of_point hds.digits hfs
  | @fraction fs hfs => exact @decimal_of_point [] fs (by simp) hfs

theorem real_of_sign {text rest : List Char} {negative : Bool}
    (hsign : sign text = (negative, rest)) (h : NumberForm rest) :
    (real? text).isSome = true := by
  -- The words for infinity and for no number are tried first, and are accepted as well.
  have hunsigned : (unsignedReal? rest).isSome = true := by
    unfold unsignedReal?
    dsimp only
    split
    · rfl
    · split
      · rfl
      · rw [Option.isSome_map]
        exact decimal_of_form h
  rw [real?, hsign]
  simpa using hunsigned

theorem real_of_form {text : List Char} (h : NumberForm text) : ∃ x, real? text = some x :=
  Option.isSome_iff_exists.mp (real_of_sign (sign_of_form h) h)

theorem real_of_signedText {text : List Char} {v : Int} (h : SignedText text v) :
    (real? text).isSome = true := by
  cases h with
  | bare hds => exact real_of_sign (sign_of_form (.whole hds)) (.whole hds)
  | plus hds => exact real_of_sign rfl (.whole hds)
  | minus hds => exact real_of_sign rfl (.whole hds)

end Numeral

/-! ### The narrowest literal -/

namespace Literal

theorem ofNumeral_of_whole {text : List Char} {v : Int} (h : Numeral.whole? text = some v) :
    ofNumeral? text =
      if InWidth 32 v then some (.int (Int32.ofInt v))
      else if InWidth 64 v then some (.long (Int64.ofInt v))
      else (Numeral.real? text).map .double := by
  have hint : (Int32.minValue.toInt ≤ v ∧ v ≤ Int32.maxValue.toInt) ↔ InWidth 32 v := by
    rw [Int32.toInt_minValue, Int32.toInt_maxValue, InWidth]
    omega
  have hlong : (Int64.minValue.toInt ≤ v ∧ v ≤ Int64.maxValue.toInt) ↔ InWidth 64 v := by
    rw [Int64.toInt_minValue, Int64.toInt_maxValue, InWidth]
    omega
  rw [ofNumeral?, h]
  simp only [hint, hlong]

/-- A whole number denotes the narrowest literal that holds it. -/
theorem narrowest {text : List Char} {v : Int} (h : SignedText text v) : Narrowest text v := by
  obtain ⟨x, hreal⟩ := Option.isSome_iff_exists.mp (Numeral.real_of_signedText h)
  have hliteral := ofNumeral_of_whole (Numeral.whole_of_signedText h)
  have hwider : InWidth 32 v → InWidth 64 v := by
    unfold InWidth
    omega
  by_cases hint : InWidth 32 v
  · have hvalue : (Int32.ofInt v).toInt = v := Int32.toInt_ofInt_of_le hint.1 hint.2
    rw [if_pos hint] at hliteral
    refine ⟨?_, ?_, ?_⟩
    · simp [hliteral, hvalue, hint]
    · simp [hliteral, hint]
    · simp [hliteral, hwider hint]
  · rw [if_neg hint] at hliteral
    by_cases hlong : InWidth 64 v
    · have hvalue : (Int64.ofInt v).toInt = v := Int64.toInt_ofInt_of_le hlong.1 hlong.2
      rw [if_pos hlong] at hliteral
      refine ⟨?_, ?_, ?_⟩
      · simp [hliteral, hint]
      · simp [hliteral, hvalue, hint, hlong]
      · simp [hliteral, hlong]
    · rw [if_neg hlong, hreal] at hliteral
      refine ⟨?_, ?_, ?_⟩
      · simp [hliteral, hint]
      · simp [hliteral, hlong]
      · simp [hliteral, hlong]

end Literal

/-! ### Shown numbers -/

theorem isDigits_toDigits (m : Nat) : IsDigits (Nat.toDigits 10 m) where
  nonempty := Nat.toDigits_ne_nil
  digits _ hd := Nat.isDigit_of_mem_toDigits (by decide) (by decide) hd

theorem placeValue_toDigits (m : Nat) : placeValue (Nat.toDigits 10 m) = m := by
  rw [← Numeral.value_eq_placeValue]
  exact Nat.ofDigitChars_ten_toDigits

/-- A number is shown as a text that denotes it. -/
theorem signedText_repr (v : Int) : SignedText v.repr.toList v := by
  rw [Int.repr_eq_if]
  by_cases hv : 0 ≤ v
  · have htext := SignedText.bare (isDigits_toDigits v.toNat)
    rw [placeValue_toDigits, Int.toNat_of_nonneg hv] at htext
    rw [if_pos hv, Nat.toList_repr]
    exact htext
  · have htext := SignedText.minus (isDigits_toDigits (-v).toNat)
    rw [placeValue_toDigits, Int.toNat_of_nonneg (by omega), Int.neg_neg] at htext
    rw [if_neg hv, String.toList_append, Nat.toList_repr]
    exact htext

theorem ofNumeral_int_text (n : Int32) :
    Literal.ofNumeral? (Value.int n).text.toList = some (.int n) := by
  have hint : InWidth 32 n.toInt := ⟨n.le_toInt, n.toInt_lt⟩
  have hwhole := Numeral.whole_of_signedText (signedText_repr n.toInt)
  rw [Value.text, Literal.ofNumeral_of_whole hwhole, if_pos hint, Int32.ofInt_toInt]

theorem ofNumeral_long_text {n : Int64} (h : ¬ InWidth 32 n.toInt) :
    Literal.ofNumeral? (Value.long n).text.toList = some (.long n) := by
  have hlong : InWidth 64 n.toInt := ⟨n.le_toInt, n.toInt_lt⟩
  have hwhole := Numeral.whole_of_signedText (signedText_repr n.toInt)
  rw [Value.text, Literal.ofNumeral_of_whole hwhole, if_neg h, if_pos hlong, Int64.ofInt_toInt]

/-! ### Numbers of a source text -/

theorem numberForm_of_numberText {text : List Char} (h : Segment.NumberText text) :
    NumberForm text := by
  cases h with
  | whole hne hdigits => exact .whole ⟨hne, hdigits⟩
  | point hpoint =>
      obtain @⟨ds, fs, hds, hne, hfs⟩ := hpoint
      cases ds with
      | nil => exact .fraction ⟨hne, hfs⟩
      | cons d ds => exact .pointed ⟨by simp, hds⟩ ⟨hne, hfs⟩

theorem ofNumeral_of_point {text : List Char} (h : NumberForm text) (hpoint : '.' ∈ text) :
    ∃ x, Literal.ofNumeral? text = some (.double x) := by
  obtain ⟨x, hx⟩ := Numeral.real_of_form h
  exact ⟨x, by rw [Literal.ofNumeral?, Numeral.whole_of_point hpoint, hx]; rfl⟩

/-- Every number that is cut off a text denotes a literal. -/
theorem ofNumeral_of_form {text : List Char} (h : NumberForm text) :
    Literal.ofNumeral? text ≠ none := by
  obtain ⟨x, hx⟩ := Numeral.real_of_form h
  cases hwhole : Numeral.whole? text with
  | none =>
      rw [Literal.ofNumeral?, hwhole, hx]
      exact Option.some_ne_none _
  | some v =>
      rw [Literal.ofNumeral_of_whole hwhole, hx]
      split
      · exact Option.some_ne_none _
      · split
        · exact Option.some_ne_none _
        · exact Option.some_ne_none _

theorem Segment.Fits.number_form {names : List String} {text lexeme rest : List Char}
    {kind : Token.Kind} {literal : Option Literal} {lines : Nat}
    (h : Segment.Fits names ⟨text, .token kind lexeme literal, lines⟩ rest)
    (hkind : kind = .number) :
    NumberForm lexeme ∧ literal = Literal.ofNumeral? lexeme := by
  cases h with
  | newline | blank | lineComment | blockComment | cast | string | character => cases hkind
  | number htext _ hvalue => exact ⟨numberForm_of_numberText htext, hvalue.symm⟩
  | @word c cs =>
      have hword := Token.Kind.ofWord_unvalued (String.ofList (c :: cs))
      rw [hkind] at hword
      exact absurd (by decide) hword
  | mark hmark =>
      have hmarks : ∀ entry ∈ Token.Kind.marks, entry.2 ≠ .number := by decide
      exact absurd hkind (hmarks _ hmark)

theorem Segment.Fits.number_accepted {names : List String} {text rest : List Char}
    {fault : LexFault} {lines : Nat} (h : Segment.Fits names ⟨text, .fault fault, lines⟩ rest)
    (number : String) : fault ≠ .invalidNumber number := by
  rintro rfl
  cases h with
  | badNumber htext _ hnone => exact ofNumeral_of_form (numberForm_of_numberText htext) hnone

/-- The message about a number that is refused is that of no other fault. -/
theorem LexFault.message_ne {fault : LexFault} {number : String}
    (h : ∀ text, fault ≠ .invalidNumber text) :
    fault.message ≠ (LexFault.invalidNumber number).message := by
  intro hmessage
  -- Two messages differ at one of three places; comparing them whole takes far longer.
  have hstart := congrArg (fun s : String => s.toList.head?) hmessage
  have hsecond := congrArg (fun s : String => s.toList[8]?) hmessage
  have hthird := congrArg (fun s : String => s.toList[21]?) hmessage
  dsimp only [message] at hstart hsecond hthird
  cases fault with
  | invalidNumber text => exact h text rfl
  | unterminatedComment | unexpectedCharacter | unterminatedString | unterminatedCharacter =>
      simp at hstart
  | invalidStringEscape | invalidCharacterEscape => simp at hsecond
  | trailingPoint | multiplePoints => simp at hthird

theorem lex_number {names : List String} {source : String} {t : Token}
    (ht : t ∈ (lex names source).tokens) (hkind : t.kind = .number) :
    NumberForm t.lexeme.toList ∧ t.literal = Literal.ofNumeral? t.lexeme.toList := by
  have htiles := tiles_pieces (Segment.segmented_ofChars names source.toList)
  rcases htiles.covers_or_end ht with ⟨text, rest, hcovers⟩ | rfl
  · exact hcovers.fits.number_form hkind
  · cases hkind

theorem numbersRead (names : List String) (source : String) : NumbersRead names source where
  form t ht hkind := (lex_number ht hkind).1
  value t ht hkind := (lex_number ht hkind).2
  pointed t ht hkind hpoint := by
    obtain ⟨hform, hvalue⟩ := lex_number ht hkind
    rw [hvalue]
    exact ofNumeral_of_point hform hpoint
  accepted d hd number := by
    have htiles := tiles_pieces (Segment.segmented_ofChars names source.toList)
    obtain ⟨fault, text, rest, lines, hfault, hfits⟩ := htiles.faults hd
    rw [hfault]
    exact LexFault.message_ne hfits.number_accepted

/-- A whole number denotes the narrowest literal that holds it, also when it is shown as a value,
and every number of a source text denotes a literal. -/
theorem numerals_narrowest :
    (∀ (text : List Char) (v : Int), SignedText text v → Narrowest text v) ∧
      (∀ n : Int32, Literal.ofNumeral? (Value.int n).text.toList = some (.int n)) ∧
      (∀ n : Int64, ¬ InWidth 32 n.toInt →
        Literal.ofNumeral? (Value.long n).text.toList = some (.long n)) ∧
      ∀ (names : List String) (source : String), NumbersRead names source :=
  ⟨fun _ _ h => Literal.narrowest h, ofNumeral_int_text, fun _ h => ofNumeral_long_text h,
    numbersRead⟩

theorem numerals_narrowest_zeros :
    SignedText ['-', '0', '2', '1', '4', '7', '4', '8', '3', '6', '4', '9'] (-2147483649) ∧
      (∃ n, Literal.ofNumeral? ['-', '0', '2', '1', '4', '7', '4', '8', '3', '6', '4', '9'] =
        some (.long n) ∧ n.toInt = -2147483649) ∧
      ¬ InWidth 32 Int64.maxValue.toInt ∧
      Literal.ofNumeral? (Value.long Int64.maxValue).text.toList = some (.long Int64.maxValue) ∧
      ∃ t ∈ (lex [] "7 .5").tokens, t.kind = .number ∧ '.' ∈ t.lexeme.toList ∧
        ∃ x, t.literal = some (.double x) := by
  obtain ⟨hnarrowest, _, hlong, hread⟩ := numerals_narrowest
  have htext : SignedText ['-', '0', '2', '1', '4', '7', '4', '8', '3', '6', '4', '9']
      (-2147483649) :=
    @SignedText.minus ['0', '2', '1', '4', '7', '4', '8', '3', '6', '4', '9']
      ⟨by decide, List.all_eq_true.mp (by decide)⟩
  have hwide : ¬ InWidth 32 Int64.maxValue.toInt := by decide
  have htoken : ∃ t ∈ (lex [] "7 .5").tokens, t.kind = .number ∧ '.' ∈ t.lexeme.toList := by
    decide +kernel
  obtain ⟨t, ht, hkind, hpoint⟩ := htoken
  exact ⟨htext, (hnarrowest _ _ htext).long.mpr (by decide), hwide, hlong _ hwide,
    t, ht, hkind, hpoint, (hread [] "7 .5").pointed t ht hkind hpoint⟩

end SlotScript
