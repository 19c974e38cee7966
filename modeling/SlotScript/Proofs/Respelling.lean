import SlotScript.Proofs.Partition

/-! # Writing tokens back

The tokens of a text can be written down again, each by its spelling and apart
from its neighbours by a separator: a blank and then any blanks and closed
comments.  Whatever the separators, the same tokens are read from the result
(`lex_respelled`).

The reason is that a token never depends on what comes behind it more than up to
the first blank (`Token.Covers.stands`). -/

namespace SlotScript

/-! ### Written tokens -/

/-- The text that a token is written with. -/
def Token.spelling (t : Token) : List Char :=
  if t.kind = .typeCast then '(' :: t.lexeme.toList ++ [')'] else t.lexeme.toList

/-- What a token is, wherever it stands. -/
def Token.content (t : Token) : Token.Kind × String × Option Literal :=
  (t.kind, t.lexeme, t.literal)

/-- The characters that only separate. -/
def isBlank (c : Char) : Bool := c == ' ' || c == '\t' || c == '\r' || c == '\n'

/-- Blanks and closed comments. -/
inductive Filler : List Char → Prop
  | nil : Filler []
  | blank {c : Char} {rest : List Char} : isBlank c = true → Filler rest → Filler (c :: rest)
  | lineComment {body rest : List Char} : '\n' ∉ body → Filler rest →
      Filler ('/' :: '/' :: (body ++ '\n' :: rest))
  | blockComment {body rest : List Char} : Segment.Unclosed body → Filler rest →
      Filler ('/' :: '*' :: (body ++ '*' :: '/' :: rest))

/-- A text that keeps two tokens apart. -/
inductive Separator : List Char → Prop
  | mk {c : Char} {rest : List Char} : isBlank c = true → Filler rest → Separator (c :: rest)

/-- A text that may stand before the first and behind the last token. -/
def Margin (cs : List Char) : Prop := cs = [] ∨ Separator cs

/-- The tokens written one after the other, with separators between them and a
margin behind them. -/
inductive Respelled : List Token → List Char → Prop
  | nil {trail : List Char} : Margin trail → Respelled [] trail
  | last {t : Token} {trail : List Char} : Margin trail → Respelled [t] (t.spelling ++ trail)
  | cons {t u : Token} {ts : List Token} {between text : List Char} : Separator between →
      Respelled (u :: ts) text → Respelled (t :: u :: ts) (t.spelling ++ (between ++ text))

/-! ### Tokens in front of a blank -/

namespace Segment

/-- The text is empty or starts with a blank. -/
def Breaks (rest : List Char) : Prop := Stops (fun c => !isBlank c) rest

theorem Breaks.stops {rest : List Char} (h : Breaks rest) {p : Char → Bool}
    (hp : [' ', '\t', '\r', '\n'].any p = false) : Stops p rest := by
  intro c hc
  have hblank : isBlank c = true := by simpa using h c hc
  rw [Bool.eq_false_iff]
  apply List.any_eq_false.mp hp
  simpa [isBlank, or_assoc] using hblank

theorem marks_unbroken : ∀ entry ∈ Token.Kind.marks, entry.1.any isBlank = false := by decide

/-- A longer mark would hold the blank. -/
theorem Breaks.longest {rest : List Char} (h : Breaks rest) (text : List Char) :
    Longest text rest := by
  intro entry hentry hstart
  rcases List.prefix_or_prefix_of_prefix hstart (List.prefix_append text rest) with hshort | hlong
  · exact hshort.length_le
  · obtain ⟨more, hmore⟩ := hlong
    rw [← hmore, List.prefix_append_right_inj] at hstart
    cases more with
    | nil => simp [← hmore]
    | cons c more =>
        obtain ⟨tail, rfl⟩ := hstart
        have hunbroken := List.any_eq_false.mp (marks_unbroken entry hentry) c (by simp [← hmore])
        have hblank := stops_cons.mp h
        simp [hunbroken] at hblank

theorem Breaks.alone {names : List String} {rest : List Char} (h : Breaks rest)
    (text : List Char) : Alone names text rest where
  slash _ := h.stops (by decide)
  point _ := h.stops (by decide)
  paren _ name more hrest htype := by
    -- neither a type name nor the parenthesis behind it starts with a blank
    cases name with
    | nil =>
        rw [hrest] at h
        exact absurd (stops_cons.mp h) (by decide)
    | cons c name =>
        have hword := htype.word c List.mem_cons_self
        have hstop : Stops continuesWord rest := h.stops (by decide)
        rw [hrest, List.cons_append, stops_cons, hword] at hstop
        cases hstop

/-- In front of a blank a token is cut as it was. -/
theorem Fits.of_breaks {names : List String} {text lexeme rest rest' : List Char}
    {kind : Token.Kind} {literal : Option Literal} {lines : Nat}
    (h : Fits names ⟨text, .token kind lexeme literal, lines⟩ rest)
    (hkind : kind.isIgnored = false) (hbreak : Breaks rest') :
    Fits names ⟨text, .token kind lexeme literal, lines⟩ rest' := by
  cases h with
  | newline | blank | lineComment | blockComment => cases hkind
  | cast _ hname => exact .cast rest' hname
  | string _ hunits => exact .string rest' hunits
  | character _ hunit => exact .character rest' hunit
  | number htext _ hvalue => exact .number htext (hbreak.stops (by decide)) hvalue
  | word hc hcs _ => exact .word hc hcs (hbreak.stops (by decide))
  | mark hmark _ _ => exact .mark hmark (hbreak.longest text) (hbreak.alone text)

end Segment

/-! ### Reading written tokens -/

/-- The token is cut off the front wherever a blank or the end follows. -/
def Token.Stands (names : List String) (t : Token) : Prop :=
  t.kind.isIgnored = false ∧ ∀ rest, Segment.Breaks rest →
    Segment.Fits names
      ⟨t.spelling, .token t.kind t.lexeme.toList t.literal, t.spelling.count '\n'⟩ rest

theorem Token.Covers.stands {names : List String} {t : Token} {text rest : List Char}
    (h : t.Covers names text rest) : t.Stands names := by
  have htext : text = t.spelling := by
    unfold Token.spelling
    split
    · rename_i hcast
      exact (h.cast hcast).1
    · rename_i hcast
      exact h.lexeme hcast
  refine ⟨h.proper.2, fun rest' hbreak => ?_⟩
  rw [← htext]
  exact h.fits.of_breaks h.proper.2 hbreak

/-- From the text the tokens are read, up to their lines, and nothing else. -/
def ReadsAs (names : List String) (cs : List Char) (ts : List Token) : Prop :=
  ∀ line, (Lexed.ofSegments line (Segment.ofChars names cs)).diagnostics = [] ∧
    (Lexed.ofSegments line (Segment.ofChars names cs)).tokens.map Token.content =
      ts.map Token.content ++ [(.eof, "", none)]

namespace ReadsAs

variable {names : List String} {ts : List Token} {rest : List Char}

theorem nil : ReadsAs names [] [] := by
  intro line
  rw [Segment.ofChars]
  exact ⟨rfl, rfl⟩

/-- Ignored text in front changes nothing. -/
theorem skip {kind : Token.Kind} {text : List Char} {lines : Nat} (h : ReadsAs names rest ts)
    (hfits : Segment.Fits names (Segment.plain kind text lines) rest)
    (hkind : kind.isIgnored = true) : ReadsAs names (text ++ rest) ts := by
  intro line
  have hcut : Segment.ofChars names (text ++ rest) =
      Segment.plain kind text lines :: Segment.ofChars names rest := Segment.ofChars_of_fits hfits
  rw [hcut, Lexed.ofSegments]
  simp only [Segment.plain, hkind, if_true]
  exact h _

theorem token {t : Token} (h : ReadsAs names rest ts) (ht : t.Stands names)
    (hbreak : Segment.Breaks rest) : ReadsAs names (t.spelling ++ rest) (t :: ts) := by
  intro line
  obtain ⟨hkind, hfits⟩ := ht
  obtain ⟨hdiagnostics, htokens⟩ := h (line + t.spelling.count '\n')
  have hcut := Segment.ofChars_of_fits (hfits rest hbreak)
  rw [hcut, Lexed.ofSegments]
  simp only [hkind, Bool.false_eq_true, if_false, List.map_cons, List.cons_append]
  refine ⟨hdiagnostics, ?_⟩
  rw [htokens]
  simp [Token.content]

theorem newline (h : ReadsAs names rest ts) : ReadsAs names ('\n' :: rest) ts :=
  h.skip (.newline rest) rfl

theorem blank {c : Char} (h : ReadsAs names rest ts) (hc : isBlank c = true) :
    ReadsAs names (c :: rest) ts := by
  have hcases : c = ' ' ∨ c = '\t' ∨ c = '\r' ∨ c = '\n' := by simpa [isBlank, or_assoc] using hc
  rcases hcases with rfl | rfl | rfl | rfl
  · exact h.skip (.blank rest (.inl rfl)) rfl
  · exact h.skip (.blank rest (.inr (.inr rfl))) rfl
  · exact h.skip (.blank rest (.inr (.inl rfl))) rfl
  · exact h.newline

theorem filler {fill : List Char} (h : ReadsAs names rest ts) (hfill : Filler fill) :
    ReadsAs names (fill ++ rest) ts := by
  induction hfill with
  | nil => exact h
  | blank hc _ ih => exact ih.blank hc
  | @lineComment body fill hbody _ ih =>
      have hcomment := ih.newline.skip (.lineComment hbody (Segment.stops_cons.mpr rfl)) rfl
      simpa using hcomment
  | @blockComment body fill hbody _ ih =>
      have hcomment := ih.skip (.blockComment _ hbody) rfl
      simpa using hcomment

theorem margin {trail : List Char} (h : ReadsAs names rest ts) (htrail : Margin trail) :
    ReadsAs names (trail ++ rest) ts := by
  rcases htrail with rfl | ⟨hc, hfill⟩
  · exact h
  · exact (h.filler hfill).blank hc

end ReadsAs

theorem Separator.breaks {between : List Char} (h : Separator between) (rest : List Char) :
    Segment.Breaks (between ++ rest) := by
  obtain ⟨hc, _⟩ := h
  exact Segment.stops_cons.mpr (by simp [hc])

theorem Margin.breaks {trail : List Char} (h : Margin trail) : Segment.Breaks trail := by
  rcases h with rfl | h
  · exact Segment.stops_nil
  · simpa using h.breaks []

/-- Tokens that stand alone are read from the text they are written as. -/
theorem Respelled.readsAs {names : List String} {ts : List Token} {text : List Char}
    (h : Respelled ts text) (hts : ∀ t ∈ ts, t.Stands names) : ReadsAs names text ts := by
  induction h with
  | nil htrail => simpa using ReadsAs.nil.margin htrail
  | last htrail =>
      have hend : ReadsAs names _ [] := ReadsAs.nil.margin htrail
      rw [List.append_nil] at hend
      exact hend.token (hts _ List.mem_cons_self) htrail.breaks
  | @cons t u ts between text hbetween _ ih =>
      obtain ⟨ht, hrest⟩ := List.forall_mem_cons.mp hts
      exact ((ih hrest).margin (.inr hbetween)).token ht (hbetween.breaks text)

/-- The tokens of a text, written down again with any separators, are read as the
same tokens, and nothing is wrong with them. -/
theorem lex_respelled (names : List String) (source : String) (lead text : List Char)
    (hlead : Margin lead) (htext : Respelled (lex names source).tokens.dropLast text) :
    (lex names (String.ofList (lead ++ text))).diagnostics = [] ∧
      (lex names (String.ofList (lead ++ text))).tokens.map Token.content =
        (lex names source).tokens.map Token.content := by
  have htiles := tiles_pieces (Segment.segmented_ofChars names source.toList)
  have hstands : ∀ t ∈ (lex names source).tokens.dropLast, t.Stands names := by
    intro t ht
    obtain ⟨_, _, hcovers⟩ := htiles.covers ht
    exact hcovers.stands
  have hreads : ReadsAs names (lead ++ text) (lex names source).tokens.dropLast :=
    (htext.readsAs hstands).margin hlead
  obtain ⟨hdiagnostics, htokens⟩ := hreads 1
  have hend : (lex names source).tokens.map Token.content =
      (lex names source).tokens.dropLast.map Token.content ++ [(.eof, "", none)] := by
    rw [htiles.tokens, List.dropLast_concat, List.map_append]
    rfl
  rw [hend, ← htokens, lex, String.toList_ofList]
  exact ⟨hdiagnostics, rfl⟩

/-- A stray character keeps the two signs apart. -/
theorem lex_stray : (lex [] "a+@+b").tokens =
    [⟨.identifier, "a", 1, none⟩, ⟨.plus, "+", 1, none⟩, ⟨.plus, "+", 1, none⟩,
      ⟨.identifier, "b", 1, none⟩, Lexed.endMark 1] := by
  have hplus : ∀ rest, Segment.Longest ['+'] rest → Segment.Fits [] (.plain .plus ['+']) rest :=
    fun rest hlongest => .mark (by decide) hlongest ⟨nofun, nofun, nofun⟩
  have hsegments : Segment.Segmented [] ['a', '+', '@', '+', 'b'] _ :=
    .cons (@Segment.Fits.word [] 'a' [] _ rfl nofun (Segment.stops_cons.mpr rfl))
      (.cons (hplus _ (by unfold Segment.Longest; decide))
        (.cons (@Segment.Fits.unknown [] '@' _ ⟨by decide, rfl, rfl, by decide⟩)
          (.cons (hplus _ (by unfold Segment.Longest; decide))
            (.cons (@Segment.Fits.word [] 'b' [] _ rfl nofun Segment.stops_nil) .nil))))
  rw [lex]
  change (Lexed.ofSegments 1 (Segment.ofChars [] ['a', '+', '@', '+', 'b'])).tokens = _
  rw [Segment.segmented_iff.mp hsegments]
  rfl

theorem lex_respelled_stray :
    Respelled (lex [] "a+@+b").tokens.dropLast "a + // c\n+\t/*d*/b".toList ∧
      (lex [] "\na + // c\n+\t/*d*/b").diagnostics = [] ∧
        (lex [] "\na + // c\n+\t/*d*/b").tokens.map Token.content =
          (lex [] "a+@+b").tokens.map Token.content := by
  have hspace : Separator [' '] := .mk rfl .nil
  have hcomment : Separator " // c\n".toList :=
    .mk rfl (@Filler.lineComment [' ', 'c'] [] (by decide) .nil)
  have htab : Separator "\t/*d*/".toList :=
    .mk rfl (@Filler.blockComment ['d'] [] (by unfold Segment.Unclosed; decide) .nil)
  have htext : Respelled (lex [] "a+@+b").tokens.dropLast "a + // c\n+\t/*d*/b".toList := by
    rw [lex_stray]
    exact .cons hspace (.cons hcomment (.cons htab (.last (.inl rfl))))
  exact ⟨htext, lex_respelled [] "a+@+b" ['\n'] _ (.inr (.mk rfl .nil)) htext⟩

end SlotScript
