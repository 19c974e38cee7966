import SlotScript.Proofs.Segmentation

/-! # Partition of a source text

A source text is a sequence of pieces.  Each gives one token, one diagnostic or
nothing, and it gives it for a reason that can be read off its text and the text
behind it (`Piece.Explained`).  `Tiles` says that pieces make up a text and that
reading the text gives what they give, in order, and an end mark.

The main statement is that every text has such pieces, and that reading can be
taken up behind any of them (`lex_partitions`). -/

namespace SlotScript

/-! ### Pieces -/

/-- What a piece of a source text gives. -/
inductive Yield where
  | token (t : Token)
  | diagnostic (d : Diagnostic)
  | nothing

/-- A part of a source text with what it gives. -/
structure Piece where
  text : List Char
  yield : Yield

namespace Piece

/-- The token that a piece gives. -/
def token? (p : Piece) : Option Token :=
  match p.yield with
  | .token t => some t
  | _ => none

/-- The diagnostic that a piece gives. -/
def diagnostic? (p : Piece) : Option Diagnostic :=
  match p.yield with
  | .diagnostic d => some d
  | _ => none

/-- The text that pieces cover. -/
def covered (pieces : List Piece) : List Char := pieces.flatMap text

end Piece

/-- The text is the one of the token, in front of the rest of the source. -/
structure Token.Covers (names : List String) (t : Token) (text rest : List Char) : Prop where
  proper : t.kind ≠ .eof ∧ t.kind.isIgnored = false
  lexeme : t.kind ≠ .typeCast → text = t.lexeme.toList
  cast : t.kind = .typeCast →
    text = '(' :: t.lexeme.toList ++ [')'] ∧ t.lexeme ∈ Ty.all.map Ty.name ++ names
  mark : t.kind ∈ Token.Kind.marks.map Prod.snd →
    (text, t.kind) ∈ Token.Kind.marks ∧ Segment.Longest text rest
  fits : Segment.Fits names ⟨text, .token t.kind t.lexeme.toList t.literal, text.count '\n'⟩ rest

/-- The text gives nothing in front of the rest of the source. -/
inductive Skipped : List Char → List Char → Prop
  | blank {c : Char} (rest : List Char) : c ∈ [' ', '\t', '\r', '\n'] → Skipped [c] rest
  | lineComment {body rest : List Char} : '\n' ∉ body → rest = [] ∨ rest.head? = some '\n' →
      Skipped ('/' :: '/' :: body) rest
  | blockComment {body : List Char} (rest : List Char) : Segment.Unclosed body →
      Skipped ('/' :: '*' :: (body ++ ['*', '/'])) rest

/-- The piece gives what its text stands for in front of the rest of the source. -/
def Piece.Explained (names : List String) (p : Piece) (rest : List Char) : Prop :=
  match p.yield with
  | .token t => t.Covers names p.text rest
  | .diagnostic d =>
    ∃ (fault : LexFault) (lines : Nat), d = fault.diagnostic d.line ∧
      Segment.Fits names ⟨p.text, .fault fault, lines⟩ rest
  | .nothing => Skipped p.text rest

/-- The pieces make up the source text, and reading it gives what they give. -/
structure Tiles (names : List String) (source : String) (pieces : List Piece) (endLine : Nat) :
    Prop where
  covered : source.toList = Piece.covered pieces
  nonempty : ∀ p ∈ pieces, p.text ≠ []
  explained : ∀ (before : List Piece) (p : Piece) (after : List Piece),
    pieces = before ++ p :: after → p.Explained names (Piece.covered after)
  tokens : (lex names source).tokens = pieces.filterMap Piece.token? ++ [Lexed.endMark endLine]
  diagnostics : (lex names source).diagnostics = pieces.filterMap Piece.diagnostic?

/-- What is read, with all of it some lines further down. -/
def Lexed.shift (l : Lexed) (lines : Nat) : Lexed :=
  ⟨l.tokens.map fun t => { t with line := t.line + lines },
    l.diagnostics.map fun d => { d with line := d.line + lines }⟩

/-! ### Kinds of tokens -/

/-- The kind is one of those that a token of a text has, and no cast. -/
structure Token.Kind.Plain (k : Token.Kind) : Prop where
  proper : k ≠ .eof ∧ k.isIgnored = false
  uncast : k ≠ .typeCast

namespace Token.Kind

instance (k : Token.Kind) : Decidable k.Plain :=
  decidable_of_iff ((k ≠ .eof ∧ k.isIgnored = false) ∧ k ≠ .typeCast)
    ⟨fun h => ⟨h.1, h.2⟩, fun h => ⟨h.1, h.2⟩⟩

theorem marks_plain : ∀ entry ∈ marks, entry.2.Plain := by decide

theorem ofWord_plain (s : String) : (ofWord s).Plain ∧ ofWord s ∉ marks.map Prod.snd := by
  have hreserved : ∀ entry ∈ reserved, entry.2.Plain ∧ entry.2 ∉ marks.map Prod.snd := by decide
  unfold ofWord
  split
  · rename_i k hk
    obtain ⟨before, after, hsplit, _⟩ := List.lookup_eq_some_iff.mp hk
    exact hreserved (s, k) (by rw [hsplit]; simp)
  · split
    · rename_i t _
      cases t <;> decide
    · decide

end Token.Kind

/-! ### What a segment gives -/

namespace Segment

section fits

variable {names : List String} {text lexeme rest : List Char} {kind : Token.Kind}
  {literal : Option Literal} {lines : Nat}

theorem Fits.skipped (h : Fits names ⟨text, .token kind lexeme literal, lines⟩ rest)
    (hkind : kind.isIgnored = true) : Skipped text rest := by
  cases h with
  | newline => exact .blank rest (by simp)
  | blank _ hc => exact .blank rest (by rcases hc with rfl | rfl | rfl <;> simp)
  | lineComment hbody hstop =>
      refine .lineComment hbody ?_
      cases rest with
      | nil => exact .inl rfl
      | cons c rest => exact .inr (by simpa using hstop)
  | blockComment _ hbody => exact .blockComment rest hbody
  | cast | string | character | number => cases hkind
  | word =>
      rw [(Token.Kind.ofWord_plain _).1.proper.2] at hkind
      cases hkind
  | mark hmark =>
      rw [(Token.Kind.marks_plain _ hmark).proper.2] at hkind
      cases hkind

theorem Fits.covers_plain (h : Fits names ⟨text, .token kind text literal, text.count '\n'⟩ rest)
    (hplain : kind.Plain) (line : Nat)
    (hmark : kind ∈ Token.Kind.marks.map Prod.snd →
      (text, kind) ∈ Token.Kind.marks ∧ Longest text rest) :
    Token.Covers names ⟨kind, String.ofList text, line, literal⟩ text rest where
  proper := hplain.proper
  lexeme _ := String.toList_ofList.symm
  cast hkind := absurd hkind hplain.uncast
  mark := hmark
  fits := by
    rw [String.toList_ofList]
    exact h

theorem Fits.covers (h : Fits names ⟨text, .token kind lexeme literal, lines⟩ rest)
    (hkind : kind.isIgnored = false) (line : Nat) :
    Token.Covers names ⟨kind, String.ofList lexeme, line, literal⟩ text rest := by
  have hlines : lines = text.count '\n' := h.lines_eq_count fun hfault => by cases hfault
  have hfits := h
  rw [hlines] at hfits
  cases h with
  | newline | blank | lineComment | blockComment => cases hkind
  | cast _ hname =>
      refine ⟨⟨nofun, rfl⟩, fun hcast => absurd rfl hcast, fun _ => ⟨?_, hname.known⟩, ?_, ?_⟩
      · rw [String.toList_ofList]
      · intro hmark
        have hnone : Token.Kind.typeCast ∉ Token.Kind.marks.map Prod.snd := by decide
        exact absurd hmark hnone
      · rw [String.toList_ofList]
        exact hfits
  | string | character | number =>
      exact hfits.covers_plain (by decide) line fun hmark => absurd hmark (by decide)
  | word =>
      obtain ⟨hplain, hnone⟩ := Token.Kind.ofWord_plain _
      exact hfits.covers_plain hplain line fun hmark => absurd hmark hnone
  | mark hmark hlongest =>
      exact hfits.covers_plain (Token.Kind.marks_plain _ hmark) line fun _ => ⟨hmark, hlongest⟩

end fits

/-- The piece of a segment that ends on a line. -/
def piece (line : Nat) (s : Segment) : Piece :=
  ⟨s.text,
    match s.meaning with
    | .fault f => .diagnostic (f.diagnostic line)
    | .token kind lexeme literal =>
      if kind.isIgnored then .nothing else .token ⟨kind, String.ofList lexeme, line, literal⟩⟩

theorem Fits.explained {names : List String} {s : Segment} {rest : List Char}
    (h : Fits names s rest) (line : Nat) : (s.piece line).Explained names rest := by
  obtain ⟨text, meaning, lines⟩ := s
  cases meaning with
  | fault f => exact ⟨f, lines, rfl, h⟩
  | token kind lexeme literal =>
      cases hkind : kind.isIgnored with
      | true =>
          simp only [Piece.Explained, piece, hkind, if_true]
          exact h.skipped hkind
      | false =>
          simp only [Piece.Explained, piece, hkind]
          exact h.covers hkind line

/-- The pieces of segments that start on a line. -/
def pieces (line : Nat) : List Segment → List Piece
  | [] => []
  | s :: rest => s.piece (line + s.lines) :: pieces (line + s.lines) rest

/-- The line behind segments that start on a line. -/
def endLine (line : Nat) : List Segment → Nat
  | [] => line
  | s :: rest => endLine (line + s.lines) rest

theorem pieces_eq_append {line : Nat} {segments : List Segment} {before after : List Piece}
    (h : pieces line segments = before ++ after) :
    ∃ front back, segments = front ++ back ∧ before = pieces line front ∧
      after = pieces (endLine line front) back := by
  induction before generalizing line segments with
  | nil => exact ⟨[], segments, rfl, rfl, h.symm⟩
  | cons p before ih =>
      cases segments with
      | nil => cases h
      | cons s segments =>
          obtain ⟨hp, htail⟩ := List.cons.inj h
          obtain ⟨front, back, rfl, rfl, rfl⟩ := ih htail
          exact ⟨s :: front, back, rfl, by rw [← hp]; rfl, rfl⟩

theorem Segmented.covered {names : List String} {cs : List Char} {segments : List Segment}
    (h : Segmented names cs segments) (line : Nat) : Piece.covered (pieces line segments) = cs := by
  induction h generalizing line with
  | nil => rfl
  | @cons s rest segments _ _ ih =>
      change s.text ++ Piece.covered (pieces (line + s.lines) segments) = s.text ++ rest
      rw [ih]

theorem Segmented.pieces_ne_nil {names : List String} {cs : List Char} {segments : List Segment}
    (h : Segmented names cs segments) (line : Nat) :
    ∀ p ∈ pieces line segments, p.text ≠ [] := by
  induction h generalizing line with
  | nil => simp [pieces]
  | cons hfits _ ih => exact List.forall_mem_cons.mpr ⟨hfits.text_ne_nil, ih _⟩

/-- Behind some of its segments a text is cut as it is cut on its own. -/
theorem Segmented.behind {names : List String} {cs : List Char} {front back : List Segment}
    (h : Segmented names cs (front ++ back)) : ∃ rest, Segmented names rest back := by
  induction front generalizing cs with
  | nil => exact ⟨cs, h⟩
  | cons s front ih =>
      cases h with
      | cons _ hrest => exact ih hrest

theorem Segmented.explained {names : List String} {cs : List Char} {segments : List Segment}
    (h : Segmented names cs segments) (line : Nat) {before after : List Piece} {p : Piece}
    (hsplit : pieces line segments = before ++ p :: after) :
    p.Explained names (Piece.covered after) := by
  obtain ⟨front, back, rfl, _, hback⟩ := pieces_eq_append hsplit
  obtain ⟨rest, hrest⟩ := h.behind
  cases hrest with
  | nil => cases hback
  | cons hfits htail =>
      obtain ⟨rfl, rfl⟩ := List.cons.inj hback
      rw [htail.covered]
      exact hfits.explained _

end Segment

/-! ### Reading and pieces -/

namespace Lexed

open Segment

theorem ofSegments_cons (line : Nat) (s : Segment) (rest : List Segment) :
    ofSegments line (s :: rest) =
      ⟨[s.piece (line + s.lines)].filterMap Piece.token? ++
          (ofSegments (line + s.lines) rest).tokens,
        [s.piece (line + s.lines)].filterMap Piece.diagnostic? ++
          (ofSegments (line + s.lines) rest).diagnostics⟩ := by
  obtain ⟨text, meaning, lines⟩ := s
  cases meaning with
  | fault f => rfl
  | token kind lexeme literal =>
      simp only [ofSegments, piece]
      cases kind.isIgnored with
      | true => rfl
      | false => rfl

theorem ofSegments_append (line : Nat) (front back : List Segment) :
    ofSegments line (front ++ back) =
      ⟨(pieces line front).filterMap Piece.token? ++ (ofSegments (endLine line front) back).tokens,
        (pieces line front).filterMap Piece.diagnostic? ++
          (ofSegments (endLine line front) back).diagnostics⟩ := by
  induction front generalizing line with
  | nil => rfl
  | cons s front ih =>
      rw [List.cons_append, ofSegments_cons, ih, pieces, endLine]
      simp only [← List.append_assoc, ← List.filterMap_append, List.singleton_append]

theorem ofSegments_shift (line lines : Nat) (segments : List Segment) :
    ofSegments (line + lines) segments = (ofSegments line segments).shift lines := by
  induction segments generalizing line with
  | nil => rfl
  | cons s rest ih =>
      have hline : line + lines + s.lines = line + s.lines + lines := by omega
      rw [ofSegments, ofSegments, hline, ih]
      cases s.meaning with
      | fault f => rfl
      | token kind lexeme literal => cases hkind : kind.isIgnored <;> simp [shift, hkind]

end Lexed

theorem Segment.le_endLine (line : Nat) (segments : List Segment) :
    line ≤ endLine line segments := by
  induction segments generalizing line with
  | nil => exact Nat.le_refl line
  | cons s rest ih =>
      have hstep := ih (line + s.lines)
      simp only [endLine]
      omega

/-- The pieces of a text are those of its segments. -/
theorem tiles_pieces {names : List String} {source : String} {segments : List Segment}
    (h : Segment.Segmented names source.toList segments) :
    Tiles names source (Segment.pieces 1 segments) (Segment.endLine 1 segments) := by
  have hread := Lexed.ofSegments_append 1 segments []
  rw [List.append_nil] at hread
  refine ⟨(h.covered 1).symm, h.pieces_ne_nil 1, ?_, ?_, ?_⟩
  · intro before p after hsplit
    exact h.explained 1 hsplit
  · rw [lex, Segment.segmented_iff.mp h, hread]
    rfl
  · rw [lex, Segment.segmented_iff.mp h, hread]
    simp [Lexed.ofSegments]

/-- Every token but the end mark covers a part of the text. -/
theorem Tiles.covers {names : List String} {source : String} {pieces : List Piece} {endLine : Nat}
    (h : Tiles names source pieces endLine) {t : Token}
    (ht : t ∈ (lex names source).tokens.dropLast) : ∃ text rest, t.Covers names text rest := by
  rw [h.tokens, List.dropLast_concat] at ht
  obtain ⟨p, hp, hyield⟩ := List.mem_filterMap.mp ht
  obtain ⟨before, after, hsplit⟩ := List.append_of_mem hp
  have hexplained := h.explained before p after hsplit
  unfold Piece.token? at hyield
  split at hyield
  · rename_i heq
    cases hyield
    unfold Piece.Explained at hexplained
    rw [heq] at hexplained
    exact ⟨_, _, hexplained⟩
  · cases hyield

theorem Tiles.covers_or_end {names : List String} {source : String} {pieces : List Piece}
    {endLine : Nat} (h : Tiles names source pieces endLine) {t : Token}
    (ht : t ∈ (lex names source).tokens) :
    (∃ text rest, t.Covers names text rest) ∨ t = Lexed.endMark endLine := by
  rw [h.tokens] at ht
  rcases List.mem_append.mp ht with hin | hend
  · left
    apply h.covers
    rw [h.tokens, List.dropLast_concat]
    exact hin
  · exact .inr (List.mem_singleton.mp hend)

/-- Every diagnostic tells what is wrong with a part of the text. -/
theorem Tiles.faults {names : List String} {source : String} {pieces : List Piece} {endLine : Nat}
    (h : Tiles names source pieces endLine) {d : Diagnostic}
    (hd : d ∈ (lex names source).diagnostics) :
    ∃ (fault : LexFault) (text rest : List Char) (lines : Nat), d = fault.diagnostic d.line ∧
      Segment.Fits names ⟨text, .fault fault, lines⟩ rest := by
  rw [h.diagnostics] at hd
  obtain ⟨p, hp, hyield⟩ := List.mem_filterMap.mp hd
  obtain ⟨before, after, hsplit⟩ := List.append_of_mem hp
  have hexplained := h.explained before p after hsplit
  unfold Piece.diagnostic? at hyield
  split at hyield
  · rename_i heq
    cases hyield
    unfold Piece.Explained at hexplained
    rw [heq] at hexplained
    obtain ⟨fault, lines, hfault, hfits⟩ := hexplained
    exact ⟨fault, _, _, lines, hfault, hfits⟩
  · cases hyield

/-- Every text is made up of pieces, reading it gives what they give, and the text
behind any of them gives on its own what is left, some lines further up. -/
theorem lex_partitions (names : List String) (source : String) :
    ∃ pieces endLine, Tiles names source pieces endLine ∧
      ∀ before after : List Piece, pieces = before ++ after → ∃ lines,
        let rest := (lex names (String.ofList (Piece.covered after))).shift lines
        (lex names source).tokens = before.filterMap Piece.token? ++ rest.tokens ∧
          (lex names source).diagnostics =
            before.filterMap Piece.diagnostic? ++ rest.diagnostics := by
  have hsegments := Segment.segmented_ofChars names source.toList
  refine ⟨_, _, tiles_pieces hsegments, ?_⟩
  intro before after hsplit
  obtain ⟨front, back, hsource, rfl, rfl⟩ := Segment.pieces_eq_append hsplit
  rw [hsource] at hsegments
  obtain ⟨rest, hrest⟩ := hsegments.behind
  have hlines := Segment.le_endLine 1 front
  refine ⟨Segment.endLine 1 front - 1, ?_⟩
  have hback : Lexed.ofSegments (Segment.endLine 1 front) back =
      (lex names (String.ofList rest)).shift (Segment.endLine 1 front - 1) := by
    rw [lex, String.toList_ofList, Segment.segmented_iff.mp hrest, ← Lexed.ofSegments_shift,
      Nat.add_sub_cancel' hlines]
  have hread := Lexed.ofSegments_append 1 front back
  rw [hrest.covered, ← hback, lex, hsource, hread]
  exact ⟨rfl, rfl⟩

end SlotScript
