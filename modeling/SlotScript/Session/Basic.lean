import SlotScript.Program
import SlotScript.Text.Blank

/-! # Sessions

What the program writes when it runs a file, or line after line at a prompt.
All lines at the prompt are read into one buffer, which is cleared before each of
them and then run as a program of its own. -/

namespace SlotScript

/-- What was written to the two output streams. -/
structure Transcript where
  out : ByteArray
  err : ByteArray

namespace Transcript

/-- Nothing written. -/
def empty : Transcript := ⟨.empty, .empty⟩

/-- One transcript behind another. -/
def append (a b : Transcript) : Transcript := ⟨a.out ++ b.out, a.err ++ b.err⟩

instance : Append Transcript := ⟨append⟩

/-- Text on the first stream. -/
def ofOut (s : String) : Transcript := ⟨s.toByteArray, .empty⟩

/-- A line on the second stream. -/
def ofErrLine (s : String) : Transcript := ⟨.empty, (s ++ "\n").toByteArray⟩

end Transcript

namespace Session

/-- Runs a source text.  Diagnostics come first; an error that ends the run is
announced by `failed`. -/
def runText (failed : String) (text : String) : Bool × Transcript :=
  let source := Source.read [] text
  let (result, sink) := source.run .unlimited
  let reported := (source.diagnostics.map fun d => Transcript.ofErrLine d.text).foldr (· ++ ·) .empty
  let shown := reported ++ ⟨sink.written, .empty⟩
  match result with
  | .ok _ => (true, shown)
  | .error e => (false, shown ++ .ofErrLine (failed ++ e.text))

/-- What announces an error in a file. -/
def fileFailed : String := "Failed run file: "

/-- Runs a file, given what it holds, if it can be read at all. -/
def runFile (path : String) (content : Option ByteArray) : Bool × Transcript :=
  match content.bind String.fromUTF8? with
  | some text => runText fileFailed text
  | none =>
    (false,
      .ofErrLine (fileFailed ++ "CompilerInternalError: Failed open source file " ++ path))

/-- What is shown before each line is read. -/
def promptMark : String := "> "

/-- What is shown when there are no more lines. -/
def farewell : String := "\nExited typlox repl\n"

/-- What is shown for a line that is not text. -/
def unreadable : String := "Failed read line: stream did not contain valid UTF-8"

/-- Takes the text out of a buffer, which can be reused. -/
def clear (_buffer : String) : String := ""

/-- Reads a line into a buffer, behind what it holds.  A line that is not text is not
read. -/
def readInto (buffer : String) (line : List UInt8) : Option String :=
  (String.fromUTF8? ⟨line.toArray⟩).map (buffer ++ ·)

/-- Runs what a buffer holds. -/
def runBuffer (buffer : String) : Transcript :=
  (runText "Failed run prompt: " (Text.trim buffer)).2

/-- What a turn at the prompt shows, the buffer behind it, and the exit code if the session
is over. -/
structure Turn where
  shown : Transcript
  buffer : String
  exit : Option UInt32

/-- The turn at the prompt in which a line comes in.  A line without even a line end is
read only when the input is over. -/
def turn (buffer : String) (line : List UInt8) : Turn :=
  let cleared := clear buffer
  if line.isEmpty then ⟨.ofOut farewell, cleared, some 0⟩
  else
    match readInto cleared line with
    | some filled => ⟨runBuffer filled, filled, none⟩
    | none => ⟨.ofErrLine unreadable, cleared, none⟩

/-- The next line of an input, with the line end that closes it, and the input behind
it. -/
def readLine (input : List UInt8) : List UInt8 × List UInt8 :=
  let behind := input.dropWhile (· != 10)
  (input.takeWhile (· != 10) ++ behind.take 1, behind.drop 1)

theorem readLine_append (input : List UInt8) :
    (readLine input).1 ++ (readLine input).2 = input := by
  simp only [readLine, List.append_assoc, List.take_append_drop,
    List.takeWhile_append_dropWhile]

theorem turn_exit {buffer : String} {line : List UInt8} (h : (turn buffer line).exit = none) :
    line ≠ [] := by
  rintro rfl
  cases h

/-- The session at the prompt with this buffer, and this input still to come: its exit code
and what it writes. -/
def runWith (buffer : String) (input : List UInt8) : UInt32 × Transcript :=
  let now := turn buffer (readLine input).1
  match _h : now.exit with
  | some code => (code, .ofOut promptMark ++ now.shown)
  | none =>
    let (code, later) := runWith now.buffer (readLine input).2
    (code, .ofOut promptMark ++ now.shown ++ later)
termination_by input.length
decreasing_by
  have hlength := congrArg List.length (readLine_append input)
  have hline := List.length_pos_iff.mpr (turn_exit _h)
  rw [List.length_append] at hlength
  omega

/-- The session at the prompt on an input, which starts with a new buffer. -/
def runPrompt (input : List UInt8) : UInt32 × Transcript := runWith "" input

/-- What is written at the prompt on a whole input. -/
def prompt (input : List UInt8) : Transcript := (runPrompt input).2

end Session

end SlotScript
