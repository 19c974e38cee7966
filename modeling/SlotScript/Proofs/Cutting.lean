import Mathlib.Data.List.Nodup
import Mathlib.Data.List.TakeWhile
import SlotScript.Proofs.LexicalRules

/-! # Cutting follows the lexical rules

Whatever the text, the segment cut off its front fits in front of what remains
(`Segment.cut_cuts`).  There is one lemma for each function that cuts a form of
segment; the facts on comments, strings and the table of marks are stated so
that they also serve the converse. -/

namespace SlotScript

namespace Segment

/-- The segment is the front of the text, and fits in front of what remains. -/
def Cuts (names : List String) (s : Segment) (cs : List Char) : Prop :=
  ∃ rest, cs = s.text ++ rest ∧ Fits names s rest

/-! ### Comments -/

theorem unclosed_cons {c : Char} {cs : List Char} :
    Unclosed (c :: cs) ↔ (c = '*' → cs.head? ≠ some '/') ∧ Unclosed cs := by
  unfold Unclosed
  rw [List.infix_cons_iff, not_or]
  refine and_congr_left fun _ => ?_
  cases cs with
  | nil => simp [List.prefix_cons_iff]
  | cons d ds => simp [List.cons_prefix_cons, eq_comm]

namespace Commented

theorem read_cons {c : Char} {cs : List Char} (h : c = '*' → cs.head? ≠ some '/') :
    read (c :: cs) = cons c (read cs) := by
  apply read.eq_3
  rintro tail hc rfl
  exact h hc rfl

/-- A text without `*/` is read as a whole, and reading goes on with what follows, if the
two do not make up a `*/` where they meet. -/
theorem read_append {body tail text : List Char} {closed : Bool} (h : Unclosed body)
    (hmeet : tail.head? ≠ some '/') (htail : read tail = ⟨text, 0, closed⟩) :
    read (body ++ tail) = ⟨body ++ text, body.count '\n', closed⟩ := by
  induction body with
  | nil => exact htail
  | cons c body ih =>
      obtain ⟨hfirst, hbody⟩ := unclosed_cons.mp h
      have hnext : c = '*' → (body ++ tail).head? ≠ some '/' := by
        cases body with
        | nil => exact fun _ => hmeet
        | cons d body => exact hfirst
      rw [List.cons_append, read_cons hnext, ih hbody, count_cons_lineEnd]
      rfl

end Commented

/-- Every text is closed by a first `*/`, or not at all. -/
theorem unclosed_cases (cs : List Char) :
    (∃ body rest, cs = body ++ '*' :: '/' :: rest ∧ Unclosed body) ∨ Unclosed cs := by
  fun_induction Commented.read cs with
  | case1 => exact .inr (by simp [Unclosed])
  | case2 rest => exact .inl ⟨[], rest, rfl, by simp [Unclosed]⟩
  | case3 c cs hopen ih =>
      have hfirst : c = '*' → cs.head? ≠ some '/' := by
        intro hc hhead
        obtain ⟨tail, rfl⟩ := List.head?_eq_some_iff.mp hhead
        exact hopen tail hc rfl
      rcases ih with ⟨body, rest, rfl, hbody⟩ | hcs
      · refine .inl ⟨c :: body, rest, rfl, unclosed_cons.mpr ⟨?_, hbody⟩⟩
        intro hc hhead
        apply hfirst hc
        rw [List.head?_append, hhead]
        rfl
      · exact .inr (unclosed_cons.mpr ⟨hfirst, hcs⟩)

theorem blockComment_closed {body rest : List Char} (h : Unclosed body) :
    blockComment (body ++ '*' :: '/' :: rest) =
      plain .comment ('/' :: '*' :: (body ++ ['*', '/'])) (body.count '\n') := by
  rw [blockComment, Commented.read_append h (by simp) rfl]
  rfl

theorem blockComment_open {body : List Char} (h : Unclosed body) :
    blockComment body = faulty .unterminatedComment ('/' :: '*' :: body) (body.count '\n') := by
  have hread := Commented.read_append h (by simp) (show Commented.read [] = ⟨[], 0, false⟩ from rfl)
  rw [List.append_nil] at hread
  rw [blockComment, hread]
  rfl

theorem blockComment_cuts (names : List String) (cs : List Char) :
    Cuts names (blockComment cs) ('/' :: '*' :: cs) := by
  rcases unclosed_cases cs with ⟨body, rest, rfl, hbody⟩ | hopen
  · rw [blockComment_closed hbody]
    exact ⟨rest, by simp [plain], .blockComment rest hbody⟩
  · rw [blockComment_open hopen]
    exact ⟨[], by simp [faulty], .openComment hopen⟩

theorem lineComment_cuts (names : List String) (cs : List Char) :
    Cuts names (lineComment cs) ('/' :: '/' :: cs) := by
  refine ⟨cs.dropWhile (· != '\n'), by simp [lineComment, plain],
    .lineComment ?_ (stops_dropWhile _ _)⟩
  intro hmem
  have hne := List.mem_takeWhile_imp hmem
  simp at hne

/-! ### Strings -/

theorem stringEscape_ne_newline {c d : Char} (h : stringEscape? c = some d) : c ≠ '\n' := by
  rintro rfl
  cases h

theorem count_escape {c d : Char} {cs : List Char} (h : stringEscape? c = some d) :
    ('\\' :: c :: cs).count '\n' = cs.count '\n' := by
  rw [List.count_cons_of_ne (by decide), List.count_cons_of_ne (stringEscape_ne_newline h)]

/-- Units are read in front of whatever ends a string. -/
theorem Quoted.read_append {body content tail text held : List Char} {bad : Option Char}
    {closed : Bool} (h : Units body content bad)
    (htail : Quoted.read tail = ⟨text, held, 0, none, closed⟩) :
    Quoted.read (body ++ tail) =
      ⟨body ++ text, content ++ held, body.count '\n', bad, closed⟩ := by
  induction h with
  | nil => exact htail
  | @plain c cs content bad hquote hslash _ ih =>
      rw [List.cons_append, Quoted.read.eq_4 _ _ (fun h => hquote h) (fun _ _ h _ => hslash h), ih,
        count_cons_lineEnd]
      rfl
  | @escape c d cs content bad hc _ ih =>
      rw [List.cons_append, List.cons_append, Quoted.read, ih, Quoted.escape, hc, count_escape hc]
      rfl
  | @unknown c cs content bad hc _ ih =>
      rw [List.cons_append, List.cons_append, Quoted.read, ih, Quoted.escape, hc,
        List.count_cons_of_ne (by decide), count_cons_lineEnd]
      rfl

theorem read_closed {body content rest : List Char} {bad : Option Char}
    (h : Units body content bad) :
    Quoted.read (body ++ '"' :: rest) = ⟨body ++ ['"'], content, body.count '\n', bad, true⟩ := by
  rw [Quoted.read_append h rfl, List.append_nil]

theorem read_open {body content tail : List Char} {bad : Option Char} (h : Units body content bad)
    (htail : tail = [] ∨ tail = ['\\']) :
    Quoted.read (body ++ tail) = ⟨body ++ tail, content ++ tail, body.count '\n', bad, false⟩ := by
  rcases htail with rfl | rfl
  · exact Quoted.read_append h rfl
  · exact Quoted.read_append h rfl

/-- Every text is units up to a quote, up to its end, or up to a last backslash. -/
theorem units_cases (cs : List Char) :
    ∃ body content bad tail, Units body content bad ∧ cs = body ++ tail ∧
      (tail = [] ∨ tail = ['\\'] ∨ ∃ rest, tail = '"' :: rest) := by
  fun_induction Quoted.read cs with
  | case1 => exact ⟨[], [], none, [], .nil, rfl, .inl rfl⟩
  | case2 rest => exact ⟨[], [], none, '"' :: rest, .nil, rfl, .inr (.inr ⟨rest, rfl⟩)⟩
  | case3 c cs ih =>
      obtain ⟨body, content, bad, tail, hunits, rfl, htail⟩ := ih
      cases hc : stringEscape? c with
      | some d => exact ⟨_, _, _, tail, .escape hc hunits, rfl, htail⟩
      | none => exact ⟨_, _, _, tail, .unknown hc hunits, rfl, htail⟩
  | case4 c cs hquote hslash ih =>
      obtain ⟨body, content, bad, tail, hunits, rfl, htail⟩ := ih
      by_cases hc : c = '\\'
      · subst hc
        have hend : body ++ tail = [] := by
          cases hcs : body ++ tail with
          | nil => rfl
          | cons d ds => exact (hslash d ds rfl hcs).elim
        exact ⟨[], [], none, ['\\'], .nil, by rw [hend]; rfl, .inr (.inl rfl)⟩
      · exact ⟨_, _, _, tail, .plain hquote hc hunits, rfl, htail⟩

theorem string_closed {body content rest : List Char} (h : Units body content none) :
    string (body ++ '"' :: rest) =
      valued .string ('"' :: (body ++ ['"'])) (.string (String.ofList content))
        (body.count '\n') := by
  simp only [string, read_closed h]
  rfl

theorem string_bad {body content rest : List Char} {c : Char} (h : Units body content (some c)) :
    string (body ++ '"' :: rest) =
      faulty (.invalidStringEscape c) ('"' :: (body ++ ['"'])) (body.count '\n') := by
  simp only [string, read_closed h]
  rfl

theorem string_open {body content tail : List Char} {bad : Option Char}
    (h : Units body content bad) (htail : tail = [] ∨ tail = ['\\']) :
    string (body ++ tail) =
      faulty .unterminatedString ('"' :: (body ++ tail)) (body.count '\n') := by
  simp only [string, read_open h htail]
  rfl

theorem string_cuts (names : List String) (cs : List Char) :
    Cuts names (string cs) ('"' :: cs) := by
  obtain ⟨body, content, bad, tail, hunits, rfl, htail⟩ := units_cases cs
  have hopen : tail = [] ∨ tail = ['\\'] →
      Cuts names (string (body ++ tail)) ('"' :: (body ++ tail)) := by
    intro htail
    rw [string_open hunits htail]
    exact ⟨[], by simp [faulty], .openString hunits htail⟩
  rcases htail with htail | htail | ⟨rest, rfl⟩
  · exact hopen (.inl htail)
  · exact hopen (.inr htail)
  · cases bad with
    | none =>
        rw [string_closed hunits]
        exact ⟨rest, by simp [valued], .string rest hunits⟩
    | some c =>
        rw [string_bad hunits]
        exact ⟨rest, by simp [faulty], .badString rest hunits⟩

/-! ### Characters -/

theorem count_bare (c : Char) : [c].count '\n' = lineEnd c := count_cons_lineEnd c []

theorem count_charEscape {c d : Char} (h : charEscape? c = some d) :
    ['\\', c].count '\n' = 0 := by
  unfold charEscape? at h
  split at h
  · cases h
  · exact count_escape h

theorem closeCharacter_cuts (names : List String) {unit : List Char} {value : Char}
    (h : CharUnit unit value) (cs : List Char) :
    Cuts names (closeCharacter ('\'' :: unit) (unit.count '\n') value cs)
      ('\'' :: (unit ++ cs)) := by
  unfold closeCharacter
  split
  · rename_i rest
    exact ⟨rest, by simp [valued], .character rest h⟩
  · rename_i hopen
    refine ⟨cs, rfl, .unclosedCharacter h ?_⟩
    cases cs with
    | nil => exact stops_nil
    | cons c cs => simpa using fun hc => hopen cs (by rw [hc])

theorem character_cuts (names : List String) (cs : List Char) :
    Cuts names (character cs) ('\'' :: cs) := by
  unfold character
  split
  · exact ⟨[], rfl, .openCharacter (.inl rfl)⟩
  · rename_i rest
    exact ⟨rest, rfl, .emptyCharacter rest⟩
  · exact ⟨[], rfl, .openCharacter (.inr rfl)⟩
  · rename_i c cs
    cases hc : charEscape? c with
    | some d =>
        have hcuts := closeCharacter_cuts names (.escape hc) cs
        rw [count_charEscape hc] at hcuts
        exact hcuts
    | none =>
        dsimp only
        split
        · rename_i rest
          exact ⟨rest, rfl, .badCharacter rest hc⟩
        · rename_i hopen
          refine ⟨cs, rfl, .unclosedBadCharacter hc ?_⟩
          cases cs with
          | nil => exact stops_nil
          | cons d ds => simpa using fun hd => hopen ds (by rw [hd])
  · rename_i c cs hquote hlone hslash
    have hc : c ≠ '\\' := by
      intro hc
      cases cs with
      | nil => exact hlone hc rfl
      | cons d ds => exact hslash d ds hc rfl
    have hcuts := closeCharacter_cuts names (.plain (fun h => hquote h) hc) cs
    rw [count_bare] at hcuts
    exact hcuts

/-! ### Numbers -/

theorem closeNumber_cuts (names : List String) {text cs : List Char} (h : NumberText text)
    (hstop : Stops continuesNumber cs) : Cuts names (closeNumber text cs) (text ++ cs) := by
  unfold closeNumber
  split
  · simp [continuesNumber] at hstop
  · cases hvalue : Literal.ofNumeral? text with
    | some value => exact ⟨cs, rfl, .number h hstop hvalue⟩
    | none => exact ⟨cs, rfl, .badNumber h hstop hvalue⟩

theorem closeNumber_point (text cs : List Char) : closeNumber text ('.' :: cs) =
    faulty .multiplePoints (text ++ '.' :: cs.takeWhile continuesNumber) := rfl

/-- Without a point the digits stop the number, and with one all points and
digits behind it are spoilt. -/
theorem closePoint_cuts (names : List String) {text cs : List Char} (h : PointText text)
    (hstop : Stops Char.isDigit cs) : Cuts names (closeNumber text cs) (text ++ cs) := by
  cases cs with
  | nil => exact closeNumber_cuts names (.point h) stops_nil
  | cons c cs =>
      by_cases hc : c = '.'
      · subst hc
        rw [closeNumber_point]
        exact ⟨cs.dropWhile continuesNumber, by simp [faulty],
          .multiplePoints h (fun _ => List.mem_takeWhile_imp) (stops_dropWhile _ _)⟩
      · apply closeNumber_cuts names (.point h)
        rw [stops_cons] at hstop ⊢
        simp [continuesNumber, hc, hstop]

theorem number_cuts (names : List String) {d : Char} (hd : d.isDigit = true) (cs : List Char) :
    Cuts names (number d cs) (d :: cs) := by
  have hwhole : ∀ c ∈ d :: cs.takeWhile Char.isDigit, c.isDigit = true := by
    intro c hc
    rcases List.mem_cons.mp hc with rfl | hc
    · exact hd
    · exact List.mem_takeWhile_imp hc
  have hcs : cs = cs.takeWhile Char.isDigit ++ cs.dropWhile Char.isDigit := by simp
  have hstop := stops_dropWhile Char.isDigit cs
  unfold number
  generalize cs.takeWhile Char.isDigit = front, cs.dropWhile Char.isDigit = back at *
  subst hcs
  dsimp only
  split
  · rename_i rest
    split
    · rename_i hempty
      have hrest : Stops Char.isDigit rest := by
        have hstop := stops_dropWhile Char.isDigit rest
        rw [List.isEmpty_iff] at hempty
        rw [← List.takeWhile_append_dropWhile (p := Char.isDigit) (l := rest), hempty]
        exact hstop
      exact ⟨rest, by simp [faulty], .trailingPoint (by simp) hwhole hrest⟩
    · rename_i hfraction
      have hpoint : PointText (d :: front ++ '.' :: rest.takeWhile Char.isDigit) :=
        .intro hwhole (by simpa using hfraction) (fun _ => List.mem_takeWhile_imp)
      have hcuts := closePoint_cuts names hpoint (stops_dropWhile Char.isDigit rest)
      simpa using hcuts
  · rename_i hpoint
    apply closeNumber_cuts names (.whole (by simp) hwhole)
    cases back with
    | nil => exact stops_nil
    | cons c back =>
        rw [stops_cons] at hstop ⊢
        have hc : c ≠ '.' := fun hc => hpoint back (by rw [hc])
        simp [continuesNumber, hc, hstop]

theorem pointNumber_cuts (names : List String) {cs : List Char}
    (h : cs.head?.any Char.isDigit = true) : Cuts names (pointNumber cs) ('.' :: cs) := by
  cases cs with
  | nil => cases h
  | cons d cs =>
      have hfraction : (d :: cs).takeWhile Char.isDigit ≠ [] := by
        have hd : d.isDigit = true := h
        rw [List.takeWhile_cons_of_pos hd]
        exact List.cons_ne_nil _ _
      have hpoint : PointText ([] ++ '.' :: (d :: cs).takeWhile Char.isDigit) :=
        .intro nofun hfraction (fun _ => List.mem_takeWhile_imp)
      have hcuts := closePoint_cuts names hpoint (stops_dropWhile Char.isDigit (d :: cs))
      simpa [pointNumber] using hcuts

/-! ### Words, casts and marks -/

theorem word_cuts (names : List String) {c : Char} (hc : startsWord c = true) (cs : List Char) :
    Cuts names (word c cs) (c :: cs) :=
  ⟨cs.dropWhile continuesWord, by simp [word, plain],
    .word hc (fun _ => List.mem_takeWhile_imp) (stops_dropWhile _ _)⟩

theorem castName?_eq_some {names : List String} {cs name : List Char} :
    castName? names cs = some name ↔ ∃ rest, cs = name ++ ')' :: rest ∧ TypeName names name := by
  have hknown : ∀ run : List Char,
      ((Ty.ofName? (String.ofList run)).isSome || names.contains (String.ofList run)) = true ↔
        String.ofList run ∈ Ty.all.map Ty.name ++ names := by
    intro run
    simp [Ty.ofName?]
  constructor
  · intro h
    unfold castName? at h
    dsimp only at h
    split at h
    · rename_i rest hrest
      split at h
      · rename_i hname
        cases h
        refine ⟨rest, ?_, fun _ => List.mem_takeWhile_imp, (hknown _).mp hname⟩
        rw [← hrest, List.takeWhile_append_dropWhile]
      · cases h
    · cases h
  · intro h
    obtain ⟨rest, rfl, hname⟩ := h
    have hstop : Stops continuesWord (')' :: rest) := stops_cons.mpr rfl
    unfold castName?
    rw [takeWhile_run hname.word hstop, dropWhile_run hname.word hstop]
    exact if_pos ((hknown _).mpr hname.known)

/-- The characters that decide the rule of a segment by themselves. -/
def openers : List Char := ['(', '"', '\'', '\n', ' ', '\r', '\t']

theorem marks_sorted :
    Token.Kind.marks.Pairwise fun longer shorter => shorter.1.length ≤ longer.1.length := by
  decide

theorem marks_nodup : (Token.Kind.marks.map Prod.fst).Nodup := by decide

/-- What a mark starts with and how it may go on. -/
structure Opens (c : Char) (tail : List Char) : Prop where
  digit : c.isDigit = false
  word : startsWord c = false
  solo : c ∈ '.' :: openers → tail = []
  paren : c ∈ openers → c = '('
  slash : c = '/' → tail = [] ∨ tail = ['=']
  mark : [c] ∈ Token.Kind.marks.map Prod.fst

instance (c : Char) (tail : List Char) : Decidable (Opens c tail) :=
  decidable_of_iff (c.isDigit = false ∧ startsWord c = false ∧ (c ∈ '.' :: openers → tail = []) ∧
      (c ∈ openers → c = '(') ∧ (c = '/' → tail = [] ∨ tail = ['=']) ∧
        [c] ∈ Token.Kind.marks.map Prod.fst)
    ⟨fun ⟨digit, word, solo, paren, slash, mark⟩ => ⟨digit, word, solo, paren, slash, mark⟩,
      fun h => ⟨h.digit, h.word, h.solo, h.paren, h.slash, h.mark⟩⟩

theorem marks_opens : ∀ entry ∈ Token.Kind.marks, entry.1 = entry.1.headD ' ' :: entry.1.tail ∧
    Opens (entry.1.headD ' ') entry.1.tail := by
  decide

theorem opens_of_mem {entry : List Char × Token.Kind} (h : entry ∈ Token.Kind.marks) :
    ∃ c tail, entry.1 = c :: tail ∧ Opens c tail :=
  ⟨_, _, marks_opens entry h⟩

/-- The first entry that matches is the longest that does. -/
theorem longest_of_find {cs text : List Char} {kind : Token.Kind}
    (h : Token.Kind.marks.find? (·.1.isPrefixOf cs) = some (text, kind)) :
    (text, kind) ∈ Token.Kind.marks ∧ ∃ rest, cs = text ++ rest ∧ Longest text rest := by
  obtain ⟨hmatch, before, after, hmarks, hbefore⟩ := List.find?_eq_some_iff_append.mp h
  obtain ⟨rest, hrest⟩ := List.isPrefixOf_iff_prefix.mp hmatch
  refine ⟨List.mem_of_find?_eq_some h, rest, hrest.symm, ?_⟩
  intro entry hentry hstart
  have hsorted := marks_sorted
  rw [hmarks] at hentry hsorted
  rcases List.mem_append.mp hentry with hentry | hentry
  · have hno := hbefore entry hentry
    rw [← hrest, List.isPrefixOf_iff_prefix.mpr hstart] at hno
    cases hno
  · rcases List.mem_cons.mp hentry with rfl | hentry
    · exact Nat.le_refl _
    · exact List.rel_of_pairwise_cons (List.pairwise_append.mp hsorted).2.1 hentry

theorem find_of_longest {text rest : List Char} {kind : Token.Kind}
    (hmark : (text, kind) ∈ Token.Kind.marks) (hlongest : Longest text rest) :
    Token.Kind.marks.find? (·.1.isPrefixOf (text ++ rest)) = some (text, kind) := by
  have hsome : (Token.Kind.marks.find? (·.1.isPrefixOf (text ++ rest))).isSome = true := by
    rw [List.find?_isSome]
    exact ⟨_, hmark, List.isPrefixOf_iff_prefix.mpr (List.prefix_append text rest)⟩
  obtain ⟨⟨first, kind'⟩, hfind⟩ := Option.isSome_iff_exists.mp hsome
  obtain ⟨hfirst, rest', hrest, hlongest'⟩ := longest_of_find hfind
  have hle : first.length ≤ text.length := hlongest _ hfirst ⟨rest', hrest.symm⟩
  have hge : text.length ≤ first.length := hlongest' _ hmark ⟨rest, hrest⟩
  have htext : text = first := (List.append_inj hrest (by omega)).1
  have hentry := List.inj_on_of_nodup_map marks_nodup hmark hfirst htext
  rw [hfind, hentry]

theorem leftParen_longest (rest : List Char) : Longest ['('] rest := by
  intro entry hentry hstart
  obtain ⟨c, tail, htext, hopens⟩ := opens_of_mem hentry
  rw [htext, List.singleton_append, List.cons_prefix_cons] at hstart
  rw [htext, hopens.solo (by rw [hstart.1]; decide)]
  exact Nat.le_refl 1

theorem paren_cuts (names : List String) (cs : List Char) :
    Cuts names (paren names cs) ('(' :: cs) := by
  unfold paren
  split
  · rename_i name hname
    obtain ⟨rest, rfl, htype⟩ := castName?_eq_some.mp hname
    exact ⟨rest, by simp, .cast rest htype⟩
  · rename_i hname
    refine ⟨cs, rfl, .mark (by decide) (leftParen_longest cs) ⟨nofun, nofun, ?_⟩⟩
    intro _ name more hcs htype
    rw [castName?_eq_some.mpr ⟨more, hcs, htype⟩] at hname
    cases hname

/-- Where no opener and no comment starts, the class of the character decides. -/
theorem cut_other {names : List String} {c : Char} {cs : List Char} (hc : c ∉ openers)
    (hslash : c = '/' → Stops (fun c => c == '/' || c == '*') cs) :
    cut names c cs =
      if c.isDigit then number c cs
      else if c == '.' && cs.head?.any Char.isDigit then pointNumber cs
      else if startsWord c then word c cs
      else mark c cs := by
  have hline : ∀ rest, c = '/' → cs = '/' :: rest → False := by
    intro rest hc hcs
    simpa [hcs] using hslash hc
  have hblock : ∀ rest, c = '/' → cs = '*' :: rest → False := by
    intro rest hc hcs
    simpa [hcs] using hslash hc
  simp only [openers, List.mem_cons, List.not_mem_nil, or_false, not_or] at hc
  obtain ⟨hparen, hstring, hcharacter, hnewline, hspace, hreturn, htab⟩ := hc
  rw [cut.eq_7 names c cs hparen hstring hcharacter hnewline hline hblock, if_neg]
  simp [hspace, hreturn, htab]

theorem mark_cuts (names : List String) {c : Char} {cs : List Char} (hc : c ∉ openers)
    (hslash : c = '/' → Stops (fun c => c == '/' || c == '*') cs) (hdigit : c.isDigit = false)
    (hpoint : c = '.' → Stops Char.isDigit cs) (hword : startsWord c = false) :
    Cuts names (mark c cs) (c :: cs) := by
  unfold mark
  split
  · rename_i text kind hfind
    obtain ⟨hmark, rest, hcs, hlongest⟩ := longest_of_find hfind
    refine ⟨rest, hcs, .mark hmark hlongest ⟨?_, ?_, ?_⟩⟩
    · intro htext
      subst htext
      cases hcs
      exact hslash rfl
    · intro htext
      subst htext
      cases hcs
      exact hpoint rfl
    · intro htext
      subst htext
      cases hcs
      exact absurd (by decide) hc
  · rename_i hfind
    refine ⟨cs, rfl, .unknown cs ⟨?_, hdigit, hword, ?_⟩⟩
    · intro hmem
      have hopen : ['\n', ' ', '\r', '\t', '"', '\''] ⊆ openers := by decide
      exact hc (hopen hmem)
    · intro entry hentry hhead
      obtain ⟨d, tail, htext, hopens⟩ := opens_of_mem hentry
      rw [htext] at hhead
      cases hhead
      obtain ⟨single, hsingle, htext⟩ := List.mem_map.mp hopens.mark
      apply List.find?_eq_none.mp hfind single hsingle
      rw [htext]
      simp

/-- The segment that is cut fits in front of what remains. -/
theorem cut_cuts (names : List String) (c : Char) (cs : List Char) :
    Cuts names (cut names c cs) (c :: cs) := by
  by_cases hc : c ∈ openers
  · simp only [openers, List.mem_cons, List.not_mem_nil, or_false] at hc
    rcases hc with rfl | rfl | rfl | rfl | rfl | rfl | rfl
    · exact paren_cuts names cs
    · exact string_cuts names cs
    · exact character_cuts names cs
    · exact ⟨cs, rfl, .newline cs⟩
    · exact ⟨cs, rfl, .blank cs (.inl rfl)⟩
    · exact ⟨cs, rfl, .blank cs (.inr (.inl rfl))⟩
    · exact ⟨cs, rfl, .blank cs (.inr (.inr rfl))⟩
  by_cases hslash : c = '/' → Stops (fun c => c == '/' || c == '*') cs
  · rw [cut_other hc hslash]
    by_cases hdigit : c.isDigit = true
    · rw [if_pos hdigit]
      exact number_cuts names hdigit cs
    rw [if_neg hdigit]
    by_cases hpoint : (c == '.' && cs.head?.any Char.isDigit) = true
    · rw [if_pos hpoint]
      simp only [Bool.and_eq_true, beq_iff_eq] at hpoint
      rw [hpoint.1]
      exact pointNumber_cuts names hpoint.2
    rw [if_neg hpoint]
    by_cases hword : startsWord c = true
    · rw [if_pos hword]
      exact word_cuts names hword cs
    rw [if_neg hword]
    refine mark_cuts names hc hslash (by simpa using hdigit) ?_ (by simpa using hword)
    intro hdot d hd
    simpa [hdot, Option.mem_def.mp hd] using hpoint
  · -- the slash goes on as one of the two comments
    obtain ⟨rfl, hcomment⟩ := Classical.not_imp.mp hslash
    cases cs with
    | nil => exact absurd stops_nil hcomment
    | cons d ds =>
        have hd : d = '/' ∨ d = '*' := by simpa [← or_iff_not_imp_left] using hcomment
        rcases hd with rfl | rfl
        · exact lineComment_cuts names ds
        · exact blockComment_cuts names ds

end Segment

end SlotScript
