import SlotScript.Proofs.Cutting

/-! # The lexical rules decide the segments

A segment that fits in front of a text is the one that is cut there
(`Segment.cut_of_fits`).  With the other direction the rules give each text
exactly the segments that it is cut into (`Segment.segmented_iff`). -/

namespace SlotScript

namespace Segment

/-! ### Words -/

theorem not_mem_of_class {p : Char → Bool} {others : List Char} {c : Char} (hc : p c = true)
    (hothers : others.any p = false) : c ∉ others := by
  intro hmem
  exact List.any_eq_false.mp hothers c hmem hc

theorem startsWord_of_isDigit {c : Char} (hc : c.isDigit = true) : startsWord c = false := by
  have hdigits : ∀ n < 58, 48 ≤ n → startsWord (Char.ofNat n) = false := by decide
  have hrange : (decide (c.val ≥ '0'.val) && decide (c.val ≤ '9'.val)) = true := hc
  simp only [Bool.and_eq_true, decide_eq_true_eq, UInt32.le_iff_toNat_le, ge_iff_le] at hrange
  have hbounds : 48 ≤ c.toNat ∧ c.toNat ≤ 57 := hrange
  have hword := hdigits c.toNat (by omega) hbounds.1
  rw [Char.ofNat_toNat] at hword
  exact hword

theorem cut_word {names : List String} {c : Char} {cs : List Char} (hc : startsWord c = true) :
    cut names c cs = word c cs := by
  have hother : c ∉ '/' :: '.' :: openers := not_mem_of_class hc (by decide)
  simp only [List.mem_cons, not_or] at hother
  obtain ⟨hslash, hdot, hopen⟩ := hother
  have hdigit : ¬ c.isDigit = true := by
    intro hdigit
    rw [startsWord_of_isDigit hdigit] at hc
    cases hc
  rw [cut_other hopen (fun h => absurd h hslash), if_neg hdigit, if_neg (by simp [hdot]),
    if_pos hc]

/-! ### Numbers -/

theorem cut_digit {names : List String} {d : Char} {cs : List Char} (hd : d.isDigit = true) :
    cut names d cs = number d cs := by
  have hother : d ∉ '/' :: openers := not_mem_of_class hd (by decide)
  rw [List.mem_cons, not_or] at hother
  rw [cut_other hother.2 (fun h => absurd h hother.1), if_pos hd]

theorem stops_digit {rest : List Char} (h : Stops continuesNumber rest) :
    Stops Char.isDigit rest := by
  intro c hc
  have hnumber := h c hc
  simp only [continuesNumber, Bool.or_eq_false_iff] at hnumber
  exact hnumber.2

theorem closeNumber_of_stops {text cs : List Char} (h : Stops continuesNumber cs) :
    closeNumber text cs =
      match Literal.ofNumeral? text with
      | some value => valued .number text value
      | none => faulty (.invalidNumber (String.ofList text)) text := by
  unfold closeNumber
  split
  · simp [continuesNumber] at h
  · rfl

theorem cut_whole (names : List String) {digits rest : List Char} (hne : digits ≠ [])
    (hdigits : ∀ d ∈ digits, d.isDigit = true) (hstop : Stops continuesNumber rest) :
    ∃ c cs, digits ++ rest = c :: cs ∧ cut names c cs = closeNumber digits rest := by
  cases digits with
  | nil => exact absurd rfl hne
  | cons d ds =>
      obtain ⟨hd, hds⟩ := List.forall_mem_cons.mp hdigits
      have hrest := stops_digit hstop
      refine ⟨d, ds ++ rest, rfl, ?_⟩
      rw [cut_digit hd, number, takeWhile_run hds hrest, dropWhile_run hds hrest]
      split
      · simp [continuesNumber] at hstop
      · rfl

theorem number_point {d : Char} {ds rest : List Char} (hds : ∀ c ∈ ds, c.isDigit = true) :
    number d (ds ++ '.' :: rest) =
      if (rest.takeWhile Char.isDigit).isEmpty then faulty .trailingPoint (d :: ds ++ ['.'])
      else closeNumber (d :: ds ++ '.' :: rest.takeWhile Char.isDigit)
        (rest.dropWhile Char.isDigit) := by
  have hpoint : Stops Char.isDigit ('.' :: rest) := stops_cons.mpr rfl
  rw [number, takeWhile_run hds hpoint, dropWhile_run hds hpoint]
  rfl

theorem cut_point (names : List String) {text rest : List Char} (h : PointText text)
    (hstop : Stops Char.isDigit rest) :
    ∃ c cs, text ++ rest = c :: cs ∧ cut names c cs = closeNumber text rest := by
  obtain @⟨whole, fraction, hwhole, hne, hfraction⟩ := h
  cases whole with
  | nil =>
      have hhead : (fraction ++ rest).head?.any Char.isDigit = true := by
        cases fraction with
        | nil => exact absurd rfl hne
        | cons d ds => exact hfraction d List.mem_cons_self
      refine ⟨'.', fraction ++ rest, rfl, ?_⟩
      rw [cut_other (by decide) (fun h => absurd h (by decide)), if_neg (by decide),
        if_pos (by simpa using hhead), pointNumber, takeWhile_run hfraction hstop,
        dropWhile_run hfraction hstop]
      rfl
  | cons d ds =>
      obtain ⟨hd, hds⟩ := List.forall_mem_cons.mp hwhole
      refine ⟨d, ds ++ '.' :: (fraction ++ rest), by simp, ?_⟩
      rw [cut_digit hd, number_point hds, takeWhile_run hfraction hstop,
        dropWhile_run hfraction hstop, if_neg (by simpa using hne)]

theorem cut_trailing (names : List String) {whole rest : List Char} (hne : whole ≠ [])
    (hwhole : ∀ d ∈ whole, d.isDigit = true) (hstop : Stops Char.isDigit rest) :
    ∃ c cs, whole ++ ['.'] ++ rest = c :: cs ∧
      cut names c cs = faulty .trailingPoint (whole ++ ['.']) := by
  cases whole with
  | nil => exact absurd rfl hne
  | cons d ds =>
      obtain ⟨hd, hds⟩ := List.forall_mem_cons.mp hwhole
      have hempty : ([] ++ rest).takeWhile Char.isDigit = [] := takeWhile_run nofun hstop
      rw [List.nil_append] at hempty
      refine ⟨d, ds ++ '.' :: rest, by simp, ?_⟩
      rw [cut_digit hd, number_point hds, hempty, if_pos List.isEmpty_nil]

theorem cut_number (names : List String) {text rest : List Char} (h : NumberText text)
    (hstop : Stops continuesNumber rest) :
    ∃ c cs, text ++ rest = c :: cs ∧ cut names c cs = closeNumber text rest := by
  cases h with
  | whole hne hdigits => exact cut_whole names hne hdigits hstop
  | point hpoint => exact cut_point names hpoint (stops_digit hstop)

/-! ### Characters -/

theorem character_escape (c : Char) (cs : List Char) :
    character ('\\' :: c :: cs) =
      match charEscape? c with
      | some d => closeCharacter ['\'', '\\', c] 0 d cs
      | none =>
        match cs with
        | '\'' :: _ => faulty .invalidCharacterEscape ['\'', '\\', c, '\'']
        | _ => faulty .invalidCharacterEscape ['\'', '\\', c] := rfl

theorem character_unit {unit cs : List Char} {value : Char} (h : CharUnit unit value) :
    character (unit ++ cs) = closeCharacter ('\'' :: unit) (unit.count '\n') value cs := by
  cases h with
  | plain hquote hslash =>
      rw [count_bare]
      exact character.eq_6 value cs hquote (fun h _ => hslash h) (fun _ _ h _ => hslash h)
  | @escape c _ hc =>
      change character ('\\' :: c :: cs) = _
      rw [character_escape, hc, count_charEscape hc]

/-! ### Marks and all other characters -/

theorem cut_mark {names : List String} {text rest : List Char} {kind : Token.Kind}
    (hmark : (text, kind) ∈ Token.Kind.marks) (hlongest : Longest text rest)
    (halone : Alone names text rest) :
    ∃ c cs, text ++ rest = c :: cs ∧ cut names c cs = plain kind text := by
  obtain ⟨c, tail, htext, hopens⟩ := opens_of_mem hmark
  dsimp only at htext
  subst htext
  refine ⟨c, tail ++ rest, rfl, ?_⟩
  by_cases hc : c ∈ openers
  · -- the parenthesis, which starts no cast here
    obtain rfl := hopens.paren hc
    obtain rfl := hopens.solo (List.mem_cons_of_mem _ hc)
    have hkind : ((['('], kind) : List Char × Token.Kind) = (['('], .leftParen) :=
      List.inj_on_of_nodup_map marks_nodup hmark (by decide) rfl
    have hcast : castName? names rest = none := by
      rw [Option.eq_none_iff_forall_ne_some]
      intro name hname
      obtain ⟨more, hrest, htype⟩ := castName?_eq_some.mp hname
      exact halone.paren rfl name more hrest htype
    change paren names rest = _
    rw [paren, hcast, (Prod.mk.inj hkind).2]
  · -- neither a comment nor a number starts here, so the table is looked up
    have hcomment : c = '/' → Stops (fun c => c == '/' || c == '*') (tail ++ rest) := by
      intro hslash
      subst hslash
      rcases hopens.slash rfl with rfl | rfl
      · exact halone.slash rfl
      · exact stops_cons.mpr rfl
    have hpoint : ¬ (c == '.' && (tail ++ rest).head?.any Char.isDigit) = true := by
      intro hpoint
      rw [Bool.and_eq_true, beq_iff_eq] at hpoint
      obtain ⟨rfl, hany⟩ := hpoint
      obtain rfl := hopens.solo List.mem_cons_self
      obtain ⟨d, hd, hdigit⟩ := (Option.any_eq_true _ _).mp hany
      rw [halone.point rfl d hd] at hdigit
      cases hdigit
    rw [cut_other hc hcomment, if_neg (by simp [hopens.digit]), if_neg hpoint,
      if_neg (by simp [hopens.word]), mark, ← List.cons_append, find_of_longest hmark hlongest]

theorem cut_unknown {names : List String} {c : Char} {cs : List Char} (h : Unknown c) :
    cut names c cs = faulty (.unexpectedCharacter c) [c] := by
  have hmark : ∀ entry ∈ Token.Kind.marks, ¬ (entry.1.isPrefixOf (c :: cs)) = true := by
    intro entry hentry hstart
    obtain ⟨d, tail, htext, _⟩ := opens_of_mem hentry
    rw [htext, List.isPrefixOf_iff_prefix, List.cons_prefix_cons] at hstart
    exact h.mark entry hentry (by rw [htext, hstart.1]; rfl)
  have hsolo : ∀ d, [d] ∈ Token.Kind.marks.map Prod.fst → c ≠ d := by
    intro d hd hc
    obtain ⟨entry, hentry, htext⟩ := List.mem_map.mp hd
    exact h.mark entry hentry (by rw [htext, hc]; rfl)
  have hother : c ∉ openers := by
    have hopen : openers ⊆ '(' :: ['\n', ' ', '\r', '\t', '"', '\''] := by decide
    intro hc
    rcases List.mem_cons.mp (hopen hc) with hparen | hspecial
    · exact hsolo '(' (by decide) hparen
    · exact h.special hspecial
  rw [cut_other hother (fun hc => absurd hc (hsolo '/' (by decide))), if_neg (by simp [h.digit]),
    if_neg (by simp [hsolo '.' (by decide)]), if_neg (by simp [h.word]), mark,
    List.find?_eq_none.mpr hmark]

/-! ### All rules -/

/-- A segment that fits is the one that is cut. -/
theorem cut_of_fits {names : List String} {s : Segment} {rest : List Char}
    (h : Fits names s rest) : ∃ c cs, s.text ++ rest = c :: cs ∧ cut names c cs = s := by
  cases h with
  | newline => exact ⟨'\n', rest, rfl, rfl⟩
  | blank _ hc =>
      rcases hc with rfl | rfl | rfl
      · exact ⟨_, rest, rfl, rfl⟩
      · exact ⟨_, rest, rfl, rfl⟩
      · exact ⟨_, rest, rfl, rfl⟩
  | @lineComment body _ hbody hstop =>
      have hrun : ∀ c ∈ body, (c != '\n') = true := by
        intro c hc
        rw [bne_iff_ne]
        rintro rfl
        exact hbody hc
      refine ⟨'/', '/' :: (body ++ rest), rfl, ?_⟩
      change lineComment (body ++ rest) = _
      rw [lineComment, takeWhile_run hrun hstop]
  | @blockComment body _ hbody =>
      exact ⟨'/', '*' :: (body ++ '*' :: '/' :: rest), by simp [plain], blockComment_closed hbody⟩
  | @openComment body hbody =>
      exact ⟨'/', '*' :: body, by simp [faulty], blockComment_open hbody⟩
  | @cast name _ hname =>
      refine ⟨'(', name ++ ')' :: rest, by simp, ?_⟩
      change paren names _ = _
      rw [paren, castName?_eq_some.mpr ⟨rest, rfl, hname⟩]
  | @string body _ _ hunits =>
      exact ⟨'"', body ++ '"' :: rest, by simp [valued], string_closed hunits⟩
  | @badString body _ _ _ hunits =>
      exact ⟨'"', body ++ '"' :: rest, by simp [faulty], string_bad hunits⟩
  | @openString body _ tail _ hunits htail =>
      exact ⟨'"', body ++ tail, by simp [faulty], string_open hunits htail⟩
  | @character unit _ _ hunit =>
      exact ⟨'\'', unit ++ '\'' :: rest, by simp [valued], character_unit hunit⟩
  | @unclosedCharacter unit _ _ hunit hstop =>
      refine ⟨'\'', unit ++ rest, rfl, (character_unit hunit).trans ?_⟩
      unfold closeCharacter
      split
      · simp at hstop
      · rfl
  | emptyCharacter => exact ⟨'\'', '\'' :: rest, rfl, rfl⟩
  | openCharacter hunit =>
      rcases hunit with rfl | rfl
      · exact ⟨'\'', [], rfl, rfl⟩
      · exact ⟨'\'', ['\\'], rfl, rfl⟩
  | @badCharacter c _ hc =>
      refine ⟨'\'', '\\' :: c :: '\'' :: rest, rfl, ?_⟩
      change character ('\\' :: c :: '\'' :: rest) = _
      rw [character_escape, hc]
      rfl
  | @unclosedBadCharacter c _ hc hstop =>
      refine ⟨'\'', '\\' :: c :: rest, rfl, ?_⟩
      change character ('\\' :: c :: rest) = _
      rw [character_escape, hc]
      dsimp only
      split
      · simp at hstop
      · rfl
  | number htext hstop hvalue =>
      obtain ⟨c, cs, heq, hcut⟩ := cut_number names htext hstop
      exact ⟨c, cs, heq, by rw [hcut, closeNumber_of_stops hstop, hvalue]⟩
  | badNumber htext hstop hvalue =>
      obtain ⟨c, cs, heq, hcut⟩ := cut_number names htext hstop
      exact ⟨c, cs, heq, by rw [hcut, closeNumber_of_stops hstop, hvalue]⟩
  | trailingPoint hne hwhole hstop => exact cut_trailing names hne hwhole hstop
  | @multiplePoints text more _ htext hmore hstop =>
      have hpoint : Stops Char.isDigit ('.' :: (more ++ rest)) := stops_cons.mpr rfl
      obtain ⟨c, cs, heq, hcut⟩ := cut_point names htext hpoint
      refine ⟨c, cs, by simpa [faulty] using heq, ?_⟩
      rw [hcut, closeNumber_point, takeWhile_run hmore hstop]
  | @word c cs _ hc hcs hstop =>
      refine ⟨c, cs ++ rest, rfl, ?_⟩
      rw [cut_word hc, word, takeWhile_run hcs hstop]
  | mark hmark hlongest halone => exact cut_mark hmark hlongest halone
  | @unknown c _ hc => exact ⟨c, rest, rfl, cut_unknown hc⟩

theorem Fits.text_ne_nil {names : List String} {s : Segment} {rest : List Char}
    (h : Fits names s rest) : s.text ≠ [] := by
  intro hnil
  cases h with
  | number htext | badNumber htext =>
      cases htext with
      | whole hne => exact hne hnil
      | point hpoint =>
          obtain ⟨_, _, _⟩ := hpoint
          simp [valued, faulty] at hnil
  | @mark text _ _ hmark =>
      obtain ⟨c, tail, htext, _⟩ := opens_of_mem hmark
      have hempty : text = [] := hnil
      rw [hempty] at htext
      cases htext
  | _ => simp [plain, faulty, valued] at hnil

theorem ofChars_of_fits {names : List String} {s : Segment} {rest : List Char}
    (h : Fits names s rest) : ofChars names (s.text ++ rest) = s :: ofChars names rest := by
  obtain ⟨c, cs, heq, hcut⟩ := cut_of_fits h
  obtain ⟨d, tail, htext⟩ := List.exists_cons_of_ne_nil h.text_ne_nil
  rw [htext, List.cons_append] at heq
  obtain ⟨rfl, rfl⟩ := List.cons.inj heq
  rw [htext, List.cons_append, ofChars, hcut, htext]
  simp

/-- The rules give exactly the segments that are cut. -/
theorem segmented_iff {names : List String} {cs : List Char} {segments : List Segment} :
    Segmented names cs segments ↔ ofChars names cs = segments := by
  constructor
  · intro h
    induction h with
    | nil => rw [ofChars]
    | cons hfits _ ih => rw [ofChars_of_fits hfits, ih]
  · rintro rfl
    -- on the length of the text: what follows a segment is shorter
    induction hn : cs.length using Nat.strongRecOn generalizing cs with
    | ind n ih =>
        cases cs with
        | nil =>
            rw [ofChars]
            exact .nil
        | cons c cs =>
            obtain ⟨rest, heq, hfits⟩ := cut_cuts names c cs
            have hshort : rest.length < n := by
              have hlength := congrArg List.length heq
              have hpos := List.length_pos_iff.mpr hfits.text_ne_nil
              simp only [List.length_append] at hlength
              omega
            rw [heq, ofChars_of_fits hfits]
            exact .cons hfits (ih rest.length hshort rfl)

theorem segmented_ofChars (names : List String) (cs : List Char) :
    Segmented names cs (ofChars names cs) := segmented_iff.mpr rfl

end Segment

end SlotScript
