import SlotScript.Proofs.Partition

/-! # Line numbers

A token or a diagnostic is put on the line on which its piece ends: one more
than the newlines up to there.  There is one exception.  A character literal may
not escape a newline, and where one does, the newline is not counted
(`Piece.isUncounted`), so what follows is put one line too high.

The main statement gives the line of everything that is read, with the
exception (`lex_lines`). -/

namespace SlotScript

/-- The piece starts a character literal whose escape is a newline. -/
def Piece.isUncounted (p : Piece) : Bool := ['\'', '\\', '\n'].isPrefixOf p.text

/-- The line, raised by the newlines that were not counted, is one more than the
newlines in the pieces. -/
def Piece.EndsOn (pieces : List Piece) (line : Nat) : Prop :=
  line + pieces.countP Piece.isUncounted = 1 + (Piece.covered pieces).count '\n'

namespace Segment

/-- The newlines of the segment are those it passes and those it does not count. -/
def Counted (s : Segment) : Prop :=
  ∀ line, s.lines + [s.piece line].countP Piece.isUncounted = s.text.count '\n'

theorem escaped_newline (cs : List Char) :
    (character ('\\' :: '\n' :: cs)).lines = 0 ∧
      (character ('\\' :: '\n' :: cs)).text.count '\n' = 1 := by
  have hnone : charEscape? '\n' = none := rfl
  rw [character_escape, hnone]
  dsimp only
  split
  · decide
  · decide

theorem Fits.rejected {names : List String} {text rest : List Char} {lines : Nat}
    (h : Fits names ⟨text, .fault .invalidCharacterEscape, lines⟩ rest) :
    lines = 0 ∧ ∃ c tail, text = '\'' :: '\\' :: c :: tail ∧ '\n' ∉ tail := by
  cases h with
  | @badCharacter c => exact ⟨rfl, c, ['\''], rfl, by decide⟩
  | @unclosedBadCharacter c => exact ⟨rfl, c, [], rfl, by decide⟩

/-- Only the newline that a character literal escapes is not counted. -/
theorem Fits.counted {names : List String} {s : Segment} {rest : List Char}
    (h : Fits names s rest) : s.Counted := by
  intro line
  rw [List.countP_singleton]
  by_cases hescape : (s.piece line).isUncounted = true
  · obtain ⟨tail, htext⟩ := List.isPrefixOf_iff_prefix.mp hescape
    obtain ⟨c, cs, heq, hcut⟩ := cut_of_fits h
    have hopen : '\'' :: '\\' :: '\n' :: (tail ++ rest) = c :: cs := by
      rw [← heq]
      exact congrArg (· ++ rest) htext
    cases hopen
    obtain ⟨hlines, hcount⟩ := escaped_newline (tail ++ rest)
    have hs : Segment.character ('\\' :: '\n' :: (tail ++ rest)) = s := hcut
    rw [hs] at hlines hcount
    rw [if_pos hescape, hlines, hcount]
  · rw [if_neg hescape, Nat.add_zero]
    by_cases hmeaning : s.meaning = .fault .invalidCharacterEscape
    · obtain ⟨text, meaning, lines⟩ := s
      cases hmeaning
      obtain ⟨rfl, c, tail, rfl, htail⟩ := h.rejected
      have hc : c ≠ '\n' := by
        rintro rfl
        exact hescape rfl
      have hcount : ('\'' :: '\\' :: c :: tail).count '\n' = 0 := by
        rw [List.count_eq_zero]
        simp [hc.symm, htail]
      rw [hcount]
    · exact h.lines_eq_count hmeaning

theorem endLine_append (line : Nat) (front back : List Segment) :
    endLine line (front ++ back) = endLine (endLine line front) back := by
  induction front generalizing line with
  | nil => rfl
  | cons s front ih => exact ih (line + s.lines)

/-- The line behind segments, counted from a line. -/
theorem endLine_add {segments : List Segment} (h : ∀ s ∈ segments, s.Counted) (line : Nat) :
    endLine line segments + (pieces line segments).countP Piece.isUncounted =
      line + (Piece.covered (pieces line segments)).count '\n' := by
  induction segments generalizing line with
  | nil => rfl
  | cons s rest ih =>
      obtain ⟨hs, hrest⟩ := List.forall_mem_cons.mp h
      have hhere := hs (line + s.lines)
      have hbehind := ih hrest (line + s.lines)
      have hcovered : Piece.covered (pieces line (s :: rest)) =
          s.text ++ Piece.covered (pieces (line + s.lines) rest) := rfl
      rw [hcovered, List.count_append, pieces, endLine, ← List.singleton_append,
        List.countP_append]
      omega

theorem Segmented.counted {names : List String} {cs : List Char} {segments : List Segment}
    (h : Segmented names cs segments) : ∀ s ∈ segments, s.Counted := by
  induction h with
  | nil => simp
  | cons hfits _ ih => exact List.forall_mem_cons.mpr ⟨hfits.counted, ih⟩

theorem piece_of_last {line : Nat} {segments : List Segment} {before : List Piece} {p : Piece}
    (h : pieces line segments = before ++ [p]) : ∃ s, p = piece (endLine line segments) s := by
  obtain ⟨front, back, rfl, _, hback⟩ := pieces_eq_append h
  cases back with
  | nil => cases hback
  | cons s back =>
      obtain ⟨hp, hnil⟩ := List.cons.inj hback
      cases back with
      | nil =>
          rw [endLine_append]
          exact ⟨s, hp⟩
      | cons => cases hnil

theorem line_of_token? {s : Segment} {line : Nat} {t : Token} (h : t ∈ (s.piece line).token?) :
    t.line = line := by
  unfold piece Piece.token? at h
  cases hmeaning : s.meaning with
  | fault f => simp [hmeaning] at h
  | token kind lexeme literal =>
      cases hkind : kind.isIgnored with
      | true => simp [hmeaning, hkind] at h
      | false =>
          simp only [hmeaning, hkind] at h
          cases h
          rfl

theorem line_of_diagnostic? {s : Segment} {line : Nat} {d : Diagnostic}
    (h : d ∈ (s.piece line).diagnostic?) : d.line = line := by
  unfold piece Piece.diagnostic? at h
  cases hmeaning : s.meaning with
  | fault f =>
      simp only [hmeaning] at h
      cases h
      rfl
  | token kind lexeme literal => cases hkind : kind.isIgnored <;> simp [hmeaning, hkind] at h

end Segment

/-- What a piece gives stands on the line on which the piece ends, and the end
mark on the last line. -/
theorem lex_lines (names : List String) (source : String) :
    ∃ pieces endLine, Tiles names source pieces endLine ∧ Piece.EndsOn pieces endLine ∧
      ∀ (before : List Piece) (p : Piece) (after : List Piece), pieces = before ++ p :: after →
        (∀ t ∈ p.token?, Piece.EndsOn (before ++ [p]) t.line) ∧
          ∀ d ∈ p.diagnostic?, Piece.EndsOn (before ++ [p]) d.line := by
  have hsegments := Segment.segmented_ofChars names source.toList
  have hcounted := hsegments.counted
  refine ⟨_, _, tiles_pieces hsegments, Segment.endLine_add hcounted 1, ?_⟩
  intro before p after hsplit
  rw [List.append_cons] at hsplit
  obtain ⟨front, back, hsource, hfront, _⟩ := Segment.pieces_eq_append hsplit
  have hends : Piece.EndsOn (before ++ [p]) (Segment.endLine 1 front) := by
    rw [hfront]
    apply Segment.endLine_add
    intro s hs
    exact hcounted s (by rw [hsource]; exact List.mem_append_left _ hs)
  obtain ⟨s, rfl⟩ := Segment.piece_of_last hfront.symm
  constructor
  · intro t ht
    rw [Segment.line_of_token? ht]
    exact hends
  · intro d hd
    rw [Segment.line_of_diagnostic? hd]
    exact hends

/-- After a rejected escape of a newline the lines are one too low. -/
theorem lex_lines_escape :
    (lex [] "'\\\n' x").tokens.map Token.line = [1, 1] ∧
      (lex [] "'\\\n' x").diagnostics.map Diagnostic.line = [1] ∧
        1 + "'\\\n' x".toList.count '\n' = 2 := by
  decide +kernel

end SlotScript
