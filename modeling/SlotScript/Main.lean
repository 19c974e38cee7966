import SlotScript.Session.Basic
import SlotScript.Session.CommandLine

/-! # The command

Reads the arguments, runs a file or the prompt, and writes what the session
says.  Everything that is decided is decided by the session. -/

namespace SlotScript.Terminal

/-- Writes a transcript to the output streams. -/
def writeTranscript (t : Transcript) : IO Unit := do
  let out ← IO.getStdout
  out.write t.out
  out.flush
  let err ← IO.getStderr
  err.write t.err
  err.flush

/-- Takes the next line off the bytes that came in, or reads on until there is one. -/
partial def nextLine (input : IO.FS.Stream) (pending : List UInt8) :
    IO (List UInt8 × List UInt8) := do
  let (line, rest) := Session.readLine pending
  if line.getLast? == some 10 then return (line, rest)
  let more ← input.read 4096
  if more.isEmpty then return (line, []) else nextLine input (pending ++ more.toList)

/-- Runs lines until the session is over, and gives its exit code. -/
partial def promptLoop (input : IO.FS.Stream) (pending : List UInt8) (buffer : String) :
    IO UInt32 := do
  writeTranscript (.ofOut Session.promptMark)
  let (line, pending) ← nextLine input pending
  let now := Session.turn buffer line
  writeTranscript now.shown
  match now.exit with
  | some code => return code
  | none => promptLoop input pending now.buffer

/-- What a file holds, if it can be read. -/
def readBytes (path : String) : IO (Option ByteArray) := do
  try
    return some (← IO.FS.readBinFile path)
  catch _ => return none

end SlotScript.Terminal

open SlotScript Terminal in
/-- Runs the command on its arguments and gives its exit code. -/
def main (args : List String) : IO UInt32 := do
  match CommandLine.parse args with
  | .error e =>
    writeTranscript (if e.exitCode = 0 then .ofOut (e.text ++ "\n") else .ofErrLine e.text)
    return e.exitCode
  | .ok invocation =>
    match invocation.mode with
    | .file path =>
      let (ok, transcript) := Session.runFile path (← readBytes path)
      writeTranscript transcript
      return if ok then 0 else 1
    | .prompt => promptLoop (← IO.getStdin) [] ""
