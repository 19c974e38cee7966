import SlotScript.Session.Basic

/-! # Lines at the prompt are isolated

A session at the prompt reads a line into its buffer, runs what the buffer holds, and goes
on with the buffer and what is left of the input.  A turn clears the buffer first, so
whatever earlier lines left there, the line is run as a program of its own (`turn_shown`)
and the rest of the session is the same (`runWith_eq_runPrompt`).

Reading has two outcomes: through the next line end (`readLine_closed`), or to the end of
the input.  The first one costs the session one turn and leaves the rest of the input to a
new session (`runPrompt_closed`, the step); so an input made of whole lines can be put in
front of any other input (`runPrompt_lines`, the run), and each stream of the longer session
is what the two sessions write, one behind the other (`runPrompt_append`). -/

namespace SlotScript

namespace Transcript

@[simp] theorem out_append (a b : Transcript) : (a ++ b).out = a.out ++ b.out := rfl

@[simp] theorem err_append (a b : Transcript) : (a ++ b).err = a.err ++ b.err := rfl

theorem append_assoc (a b c : Transcript) : a ++ b ++ c = a ++ (b ++ c) := by
  show Transcript.mk (a.out ++ b.out ++ c.out) (a.err ++ b.err ++ c.err) = _
  rw [ByteArray.append_assoc, ByteArray.append_assoc]
  rfl

theorem empty_append (a : Transcript) : Transcript.empty ++ a = a := by
  show Transcript.mk (.empty ++ a.out) (.empty ++ a.err) = a
  rw [ByteArray.empty_append, ByteArray.empty_append]

/-- Transcripts one behind the other. -/
def join (parts : List Transcript) : Transcript := parts.foldr (· ++ ·) .empty

end Transcript

namespace Session

/-! ## Reading lines -/

/-- The lines, each closed by a line end. -/
def closed (lines : List (List UInt8)) : List UInt8 := lines.flatMap (· ++ [10])

theorem readLine_closed {line : List UInt8} (h : 10 ∉ line) (rest : List UInt8) :
    readLine (line ++ 10 :: rest) = (line ++ [10], rest) := by
  have hline : ∀ b ∈ line, (b != 10) = true := by
    intro b hb
    have hne : b ≠ 10 := fun e => h (e ▸ hb)
    simpa using hne
  have htake : (line ++ 10 :: rest).takeWhile (· != 10) = line := by
    rw [List.takeWhile_append_of_pos hline]
    simp
  have hdrop : (line ++ 10 :: rest).dropWhile (· != 10) = 10 :: rest := by
    rw [List.dropWhile_append_of_pos hline]
    simp
  simp only [readLine, htake, hdrop, List.take_succ_cons, List.take_zero, List.drop_succ_cons,
    List.drop_zero]

/-- Every input is made of lines and what stands behind the last line end. -/
theorem exists_lines (input : List UInt8) :
    ∃ lines tail, (∀ line ∈ lines, 10 ∉ line) ∧ 10 ∉ tail ∧ input = closed lines ++ tail := by
  induction input with
  | nil => exact ⟨[], [], by simp, by simp, rfl⟩
  | cons b rest ih =>
    obtain ⟨lines, tail, hlines, htail, rfl⟩ := ih
    by_cases hb : b = 10
    · subst hb
      exact ⟨[] :: lines, tail, by simpa using hlines, htail, rfl⟩
    · -- the byte stands in front of the first line, or of the tail if there is none
      cases lines with
      | nil => exact ⟨[], b :: tail, by simp, by simp [htail, Ne.symm hb], rfl⟩
      | cons line more =>
        refine ⟨(b :: line) :: more, tail, ?_, htail, by simp [closed]⟩
        simpa [Ne.symm hb] using hlines

theorem exists_lines_of_closed {input : List UInt8}
    (h : input = [] ∨ input.getLast? = some 10) :
    ∃ lines, (∀ line ∈ lines, 10 ∉ line) ∧ input = closed lines := by
  obtain ⟨lines, tail, hlines, htail, rfl⟩ := exists_lines input
  have hnil : tail = [] := by
    rcases h with h | h
    · exact (List.append_eq_nil_iff.mp h).2
    · cases tail with
      | nil => rfl
      | cons b more =>
        have hlast : (b :: more).getLast? = some 10 := by
          simpa [List.getLast?_append, List.getLast?_cons] using h
        exact absurd (List.mem_of_getLast? hlast) htail
  exact ⟨lines, hlines, by rw [hnil, List.append_nil]⟩

/-! ## One turn -/

/-- What a line shows as a program of its own. -/
def runLine (line : List UInt8) : Transcript :=
  match String.fromUTF8? ⟨line.toArray⟩ with
  | some text => runBuffer text
  | none => .ofErrLine unreadable

theorem readInto_clear (buffer : String) (line : List UInt8) :
    readInto (clear buffer) line = String.fromUTF8? ⟨line.toArray⟩ := by
  simp [readInto, clear]

/-- Nothing that is in the buffer is shown. -/
theorem turn_shown (buffer : String) {line : List UInt8} (h : line ≠ []) :
    (turn buffer line).shown = runLine line := by
  have hline : line.isEmpty = false := List.isEmpty_eq_false_iff.mpr h
  simp only [turn, hline, Bool.false_eq_true, if_false, readInto_clear, runLine]
  cases String.fromUTF8? ⟨line.toArray⟩ with
  | some text => rfl
  | none => rfl

theorem turn_exit_cons (buffer : String) (b : UInt8) (rest : List UInt8) :
    (turn buffer (b :: rest)).exit = none := by
  simp only [turn, List.isEmpty_cons, Bool.false_eq_true, if_false]
  split <;> rfl

theorem turn_exit_some {buffer : String} {line : List UInt8} {code : UInt32}
    (h : (turn buffer line).exit = some code) : line = [] ∧ code = 0 := by
  cases line with
  | nil => exact ⟨rfl, (Option.some.inj h).symm⟩
  | cons b rest =>
    rw [turn_exit_cons] at h
    cases h

/-- A session goes on as a new one does, whatever is in its buffer. -/
theorem runWith_eq_runPrompt (buffer : String) (input : List UInt8) :
    runWith buffer input = runPrompt input := by
  -- The turn that comes next clears the buffer before it reads.
  have hturn : turn buffer (readLine input).1 = turn "" (readLine input).1 := rfl
  rw [runPrompt, runWith.eq_def buffer, runWith.eq_def "", hturn]

/-- What is written for a line: the mark, and what the line writes as a program of its
own. -/
def shownFor (line : List UInt8) : Transcript := .ofOut promptMark ++ runLine (line ++ [10])

theorem runPrompt_closed {line : List UInt8} (h : 10 ∉ line) (rest : List UInt8) :
    runPrompt (line ++ 10 :: rest) =
      ((runPrompt rest).1, shownFor line ++ (runPrompt rest).2) := by
  have hread := readLine_closed h rest
  have hline : line ++ [10] ≠ [] := by simp
  rw [runPrompt, runWith]
  split
  next code hexit =>
    rw [hread] at hexit
    exact absurd (turn_exit_some hexit).1 hline
  next hexit =>
    rw [hread, runWith_eq_runPrompt, turn_shown _ hline]
    rfl

theorem runPrompt_nil :
    runPrompt [] = (0, .ofOut promptMark ++ .ofOut farewell) := by
  rw [runPrompt, runWith]
  split
  next code hexit =>
    rw [(turn_exit_some hexit).2]
    rfl
  next hexit => exact absurd rfl (turn_exit hexit)

theorem runWith_exits (buffer : String) (input : List UInt8) : (runWith buffer input).1 = 0 := by
  fun_induction runWith buffer input with
  | case1 buffer input now code hexit => exact (turn_exit_some hexit).2
  | case2 buffer input now hexit code later hlater ih =>
    rw [hlater] at ih
    exact ih

/-! ## Whole sessions -/

theorem runPrompt_lines {lines : List (List UInt8)} (h : ∀ line ∈ lines, 10 ∉ line)
    (rest : List UInt8) :
    runPrompt (closed lines ++ rest) =
      ((runPrompt rest).1, Transcript.join (lines.map shownFor) ++ (runPrompt rest).2) := by
  induction lines with
  | nil => exact congrArg (Prod.mk _) (Transcript.empty_append _).symm
  | cons line more ih =>
    have hline := h line List.mem_cons_self
    have hmore := ih fun line hmem => h line (List.mem_cons_of_mem _ hmem)
    calc runPrompt (closed (line :: more) ++ rest)
      _ = runPrompt (line ++ 10 :: (closed more ++ rest)) := by simp [closed]
      _ = ((runPrompt rest).1,
            shownFor line ++ (Transcript.join (more.map shownFor) ++ (runPrompt rest).2)) := by
          rw [runPrompt_closed hline, hmore]
      _ = _ := by rw [← Transcript.append_assoc]; rfl

/-- **Isolation.**  Let the input `a` be empty or end in a line end.  Then the session on
`a` and `b` exits with code zero; its first stream is that of the session on `a` without the
last mark and the farewell, which is what the lines of `a` write each on its own, followed
by that of the session on `b`; and its second stream is those of the two sessions. -/
theorem runPrompt_append (a b : List UInt8) (ha : a = [] ∨ a.getLast? = some 10) :
    (runPrompt (a ++ b)).1 = 0 ∧
    (∃ lines, (∀ line ∈ lines, 10 ∉ line) ∧ a = closed lines ∧
      (runPrompt a).2.out =
        (Transcript.join (lines.map shownFor)).out ++ (promptMark ++ farewell).toByteArray ∧
      (runPrompt (a ++ b)).2.out =
        (Transcript.join (lines.map shownFor)).out ++ (runPrompt b).2.out) ∧
    (runPrompt (a ++ b)).2.err = (runPrompt a).2.err ++ (runPrompt b).2.err := by
  obtain ⟨lines, hlines, rfl⟩ := exists_lines_of_closed ha
  have hwhole := runPrompt_lines hlines b
  have halone := runPrompt_lines hlines []
  rw [List.append_nil, runPrompt_nil] at halone
  refine ⟨runWith_exits _ _, ⟨lines, hlines, rfl, ?_, ?_⟩, ?_⟩
  · rw [halone, String.toByteArray_append]
    rfl
  · rw [hwhole, Transcript.out_append]
  · rw [hwhole, halone]
    simp [Transcript.ofOut]

/-- A line that is not text does not reach the line `1;` behind it, which has no line
end. -/
theorem runPrompt_append_invalid :
    ([255, 10] : List UInt8).getLast? = some 10 ∧
    (runPrompt [255, 10, 49, 59]).1 = 0 ∧
    (∃ lines, (∀ line ∈ lines, 10 ∉ line) ∧ [255, 10] = closed lines ∧
      (runPrompt [255, 10]).2.out =
        (Transcript.join (lines.map shownFor)).out ++ (promptMark ++ farewell).toByteArray ∧
      (runPrompt [255, 10, 49, 59]).2.out =
        (Transcript.join (lines.map shownFor)).out ++ (runPrompt [49, 59]).2.out) ∧
    (runPrompt [255, 10, 49, 59]).2.err =
      (runPrompt [255, 10]).2.err ++ (runPrompt [49, 59]).2.err :=
  ⟨by decide, runPrompt_append [255, 10] [49, 59] (.inr (by decide))⟩

end Session

end SlotScript
