import SlotScript.Proofs.Partition

/-! # Registered type names

A text can be read with type names beside the built-in ones.  A registered name in
parentheses is then one token, a cast, where it would be three: the parentheses are marks
and the name is a word.  Nothing else depends on the names (`Segment.Fits.unregistered`).

The main statement is that the casts to registered names, written out as these three tokens,
leave exactly what is read without the names, with the same diagnostics
(`lex_unregistered`).  The names have to look like identifiers: a name that starts with a
digit would be read as a number, and an empty one would not be read at all. -/

namespace SlotScript

/-- The name has the form of an identifier. -/
def IsIdentifier (name : String) : Prop :=
  ∃ c cs, name = String.ofList (c :: cs) ∧ Segment.startsWord c = true ∧
    ∀ d ∈ cs, Segment.continuesWord d = true

namespace Token

/-- A name in parentheses, read as three tokens. -/
def parenthesised (name : String) (line : Nat) : List Token :=
  [⟨.leftParen, "(", line, none⟩, ⟨.ofWord name, name, line, none⟩,
    ⟨.rightParen, ")", line, none⟩]

/-- The tokens that stand for a token where only the built-in types are known. -/
def writtenOut (t : Token) : List Token :=
  if t.kind = .typeCast ∧ t.lexeme ∉ Ty.all.map Ty.name then parenthesised t.lexeme t.line
  else [t]

theorem writtenOut_of_known {t : Token} (h : t.kind = .typeCast → t.lexeme ∈ Ty.all.map Ty.name) :
    t.writtenOut = [t] := by
  unfold writtenOut
  exact if_neg fun hcast => hcast.2 (h hcast.1)

end Token

/-- What is read, with the casts to registered names written out. -/
def Lexed.writtenOut (l : Lexed) : Lexed := ⟨l.tokens.flatMap Token.writtenOut, l.diagnostics⟩

namespace Segment

variable {names : List String} {name rest : List Char} {s : Segment}

/-! ### Cutting with and without the names -/

/-- A cast that names a type. -/
def castTo (name : List Char) : Segment := ⟨'(' :: name ++ [')'], .token .typeCast name none, 0⟩

theorem TypeName.of_nil (h : TypeName [] name) : TypeName names name := by
  refine ⟨h.word, List.mem_append_left names ?_⟩
  simpa using h.known

theorem TypeName.registered (h : TypeName names name) (hnew : ¬ TypeName [] name) :
    String.ofList name ∈ names ∧ String.ofList name ∉ Ty.all.map Ty.name := by
  have hunknown : String.ofList name ∉ Ty.all.map Ty.name := by
    intro hknown
    exact hnew ⟨h.word, List.mem_append_left [] hknown⟩
  exact ⟨(List.mem_append.mp h.known).resolve_left hunknown, hunknown⟩

/-- A name ends at the first parenthesis. -/
theorem TypeName.eq_of_append {names' : List String} {name' rest' : List Char}
    (h : TypeName names name) (h' : TypeName names' name')
    (heq : name ++ ')' :: rest = name' ++ ')' :: rest') : name = name' := by
  have hstop : ∀ rest, Stops continuesWord (')' :: rest) := fun rest => stops_cons.mpr rfl
  rw [← takeWhile_run h.word (hstop rest), heq, takeWhile_run h'.word (hstop rest')]

/-- The names matter behind an opening parenthesis only. -/
theorem cut_of_ne_paren {c : Char} (hc : c ≠ '(') (names : List String) (cs : List Char) :
    cut names c cs = cut [] c cs := by
  unfold cut
  split
  case h_3 => exact absurd rfl hc
  all_goals rfl

theorem paren_eq_castTo (h : TypeName names name) :
    paren names (name ++ ')' :: rest) = castTo name := by
  rw [paren, castName?_eq_some.mpr ⟨rest, rfl, h⟩]
  rfl

theorem paren_eq_plain {cs : List Char}
    (h : ∀ name rest, cs = name ++ ')' :: rest → ¬ TypeName names name) :
    paren names cs = plain .leftParen ['('] := by
  have hnone : castName? names cs = none := by
    rw [Option.eq_none_iff_forall_ne_some]
    intro name hname
    obtain ⟨rest, hcs, htype⟩ := castName?_eq_some.mp hname
    exact h name rest hcs htype
  rw [paren, hnone]

/-- An opening parenthesis is cut alike with and without the names, unless it starts a cast to
one of them. -/
theorem paren_unregistered (names : List String) (cs : List Char) :
    paren names cs = paren [] cs ∨
      ∃ name rest, cs = name ++ ')' :: rest ∧ TypeName names name ∧ ¬ TypeName [] name := by
  by_cases h : ∃ name rest, cs = name ++ ')' :: rest ∧ TypeName names name
  · obtain ⟨name, rest, rfl, htype⟩ := h
    by_cases hbuiltin : TypeName [] name
    · left
      rw [paren_eq_castTo htype, paren_eq_castTo hbuiltin]
    · exact .inr ⟨name, rest, rfl, htype, hbuiltin⟩
  · left
    rw [paren_eq_plain fun name rest hcs htype => h ⟨name, rest, hcs, htype⟩,
      paren_eq_plain fun name rest hcs htype => h ⟨name, rest, hcs, htype.of_nil⟩]

/-- What is cut off the front of a text fits there. -/
theorem fits_of_cut {c : Char} {cs : List Char} (hcut : cut names c cs = s)
    (heq : s.text ++ rest = c :: cs) : Fits names s rest := by
  obtain ⟨rest', hrest, hfits⟩ := cut_cuts names c cs
  rw [hcut] at hrest hfits
  rw [← heq] at hrest
  rw [List.append_cancel_left hrest]
  exact hfits

/-- Without the names a segment is cut as with them, unless it is a cast to one of them. -/
theorem Fits.unregistered (h : Fits names s rest) :
    Fits [] s rest ∨ ∃ name, s = castTo name ∧ TypeName names name ∧ ¬ TypeName [] name := by
  obtain ⟨c, cs, heq, hcut⟩ := cut_of_fits h
  by_cases hc : c = '('
  · subst hc
    rcases paren_unregistered names cs with hparen | ⟨name, rest', rfl, htype, hnew⟩
    · have hsame : cut [] '(' cs = s := hparen.symm.trans hcut
      exact .inl (fits_of_cut hsame heq)
    · exact .inr ⟨name, hcut.symm.trans (paren_eq_castTo htype), htype, hnew⟩
  · rw [cut_of_ne_paren hc] at hcut
    exact .inl (fits_of_cut hcut heq)

/-- A name in parentheses, cut as three segments. -/
def parenthesised (name : List Char) : List Segment :=
  [plain .leftParen ['('], plain (.ofWord (String.ofList name)) name, plain .rightParen [')']]

/-- A registered identifier is cut apart from its parentheses where it is not known. -/
theorem ofChars_parenthesised (htype : TypeName names name) (hnew : ¬ TypeName [] name)
    (hname : IsIdentifier (String.ofList name)) (rest : List Char) :
    ofChars [] ((castTo name).text ++ rest) = parenthesised name ++ ofChars [] rest := by
  obtain ⟨c, cs, heq, hc, hcs⟩ := hname
  obtain rfl : name = c :: cs := String.ofList_injective heq
  have hopen : cut [] '(' (c :: (cs ++ ')' :: rest)) = plain .leftParen ['('] := by
    apply paren_eq_plain
    intro name' rest' hsplit htype'
    -- A built-in name here ends at the same parenthesis, so it is `name`.
    rw [← htype.eq_of_append htype' hsplit] at htype'
    exact hnew htype'
  have hword : cut [] c (cs ++ ')' :: rest) =
      plain (.ofWord (String.ofList (c :: cs))) (c :: cs) := by
    rw [cut_word hc, word, takeWhile_run hcs (stops_cons.mpr rfl)]
  have hclose : cut [] ')' rest = plain .rightParen [')'] := rfl
  have htext : (castTo (c :: cs)).text ++ rest = '(' :: c :: (cs ++ ')' :: rest) := by
    simp [castTo]
  rw [htext]
  calc ofChars [] ('(' :: c :: (cs ++ ')' :: rest))
      = plain .leftParen ['('] :: ofChars [] (c :: (cs ++ ')' :: rest)) :=
        ofChars_of_fits (fits_of_cut hopen rfl)
    _ = plain .leftParen ['('] :: plain (.ofWord (String.ofList (c :: cs))) (c :: cs) ::
          ofChars [] (')' :: rest) :=
        congrArg _ (ofChars_of_fits (fits_of_cut hword rfl))
    _ = parenthesised (c :: cs) ++ ofChars [] rest :=
        congrArg _ (congrArg _ (ofChars_of_fits (fits_of_cut hclose rfl)))

end Segment

/-! ### Reading with and without the names -/

namespace Lexed

open Segment

variable {names : List String} {name rest : List Char} {s : Segment}

/-- A segment that is cut without registered names gives no cast to write out. -/
theorem writtenOut_of_fits (h : Fits [] s rest) (line : Nat) :
    ([s.piece line].filterMap Piece.token?).flatMap Token.writtenOut =
      [s.piece line].filterMap Piece.token? := by
  obtain ⟨text, meaning⟩ := s
  cases meaning with
  | fault f => rfl
  | token kind lexeme literal =>
      cases hkind : kind.isIgnored with
      | true =>
          simp only [piece, hkind]
          rfl
      | false =>
          have hcovers := h.covers hkind line
          have hknown := Token.writtenOut_of_known fun hcast => by
            simpa using (hcovers.cast hcast).2
          simp [piece, Piece.token?, hkind, hknown]

/-- A token within a line is put on that line. -/
theorem ofSegments_token {text lexeme : List Char} {kind : Token.Kind}
    (hkind : kind.isIgnored = false) (line : Nat) (segments : List Segment) :
    ofSegments line (⟨text, .token kind lexeme none, 0⟩ :: segments) =
      ⟨⟨kind, String.ofList lexeme, line, none⟩ :: (ofSegments line segments).tokens,
        (ofSegments line segments).diagnostics⟩ := by
  simp only [ofSegments, Nat.add_zero, hkind, Bool.false_eq_true, if_false]

/-- The three segments of a name in parentheses give three tokens. -/
theorem ofSegments_parenthesised (name : List Char) (line : Nat) (segments : List Segment) :
    ofSegments line (parenthesised name ++ segments) =
      ⟨Token.parenthesised (String.ofList name) line ++ (ofSegments line segments).tokens,
        (ofSegments line segments).diagnostics⟩ := by
  have hkind := (Token.Kind.ofWord_plain (String.ofList name)).1.proper.2
  simp only [parenthesised, plain, List.cons_append, List.nil_append]
  rw [ofSegments_token rfl, ofSegments_token hkind, ofSegments_token rfl]
  rfl

/-- A cast to a registered name gives one token, which is written out as three. -/
theorem writtenOut_castTo (h : TypeName names name) (hnew : ¬ TypeName [] name) (line : Nat)
    (segments : List Segment) :
    (ofSegments line (castTo name :: segments)).writtenOut =
      ⟨Token.parenthesised (String.ofList name) line ++
          (ofSegments line segments).writtenOut.tokens,
        (ofSegments line segments).diagnostics⟩ := by
  have hwritten : Token.writtenOut ⟨.typeCast, String.ofList name, line, none⟩ =
      Token.parenthesised (String.ofList name) line :=
    if_pos ⟨rfl, (h.registered hnew).2⟩
  rw [castTo, ofSegments_token rfl]
  simp only [writtenOut, List.flatMap_cons, hwritten]

theorem writtenOut_ofSegments (hnames : ∀ name ∈ names, IsIdentifier name) {cs : List Char}
    {segments : List Segment} (h : Segmented names cs segments) (line : Nat) :
    (ofSegments line segments).writtenOut = ofSegments line (ofChars [] cs) := by
  induction h generalizing line with
  | nil =>
      rw [ofChars]
      rfl
  | @cons s rest segments hfits _ ih =>
      -- The segment stays as it is, or it is a cast that falls into three.
      rcases hfits.unregistered with hsame | ⟨name, rfl, htype, hnew⟩
      · rw [ofChars_of_fits hsame, ofSegments_cons, ofSegments_cons, ← ih]
        simp only [writtenOut, List.flatMap_append, writtenOut_of_fits hsame]
      · have hname := hnames _ (htype.registered hnew).1
        rw [ofChars_parenthesised htype hnew hname, ofSegments_parenthesised,
          writtenOut_castTo htype hnew, ← ih]
        rfl

end Lexed

/-- Casts to registered identifiers, written out, leave what is read without the names. -/
theorem lex_unregistered (names : List String) (source : String)
    (hnames : ∀ name ∈ names, IsIdentifier name) :
    (lex names source).tokens.flatMap Token.writtenOut = (lex [] source).tokens ∧
      (lex names source).diagnostics = (lex [] source).diagnostics := by
  have hread : (lex names source).writtenOut = lex [] source :=
    Lexed.writtenOut_ofSegments hnames (Segment.segmented_ofChars names source.toList) 1
  rw [← hread]
  exact ⟨rfl, rfl⟩

/-- A type and a reserved word are registered.  Casts to them are written out, the cast to
`int` is kept, and a name behind a blank is no cast at all. -/
theorem lex_unregistered_reserved :
    (∀ name ∈ ["Widget", "if"], IsIdentifier name) ∧
      (lex ["Widget", "if"] "(Widget)x\n(if)(int)@( Widget)").tokens.map Token.kind =
        [.typeCast, .identifier, .typeCast, .typeCast, .leftParen, .identifier, .rightParen,
          .eof] ∧
      (lex ["Widget", "if"] "(Widget)x\n(if)(int)@( Widget)").tokens.flatMap Token.writtenOut =
        (lex [] "(Widget)x\n(if)(int)@( Widget)").tokens ∧
      (lex ["Widget", "if"] "(Widget)x\n(if)(int)@( Widget)").diagnostics =
        (lex [] "(Widget)x\n(if)(int)@( Widget)").diagnostics := by
  have hwidget : IsIdentifier "Widget" :=
    ⟨'W', ['i', 'd', 'g', 'e', 't'], rfl, rfl, List.all_eq_true.mp rfl⟩
  have hif : IsIdentifier "if" := ⟨'i', ['f'], rfl, rfl, List.all_eq_true.mp rfl⟩
  have hnames : ∀ name ∈ ["Widget", "if"], IsIdentifier name := by simp [hwidget, hif]
  exact ⟨hnames, by decide +kernel, lex_unregistered _ _ hnames⟩

end SlotScript
