import SlotScript.Attempt
import SlotScript.Diagnostic
import SlotScript.Value.Basic

/-! # The machine

Code runs on numbered slots and a sink for its output.  A sink may have a limit:
it then takes bytes up to the limit and refuses every byte behind it, and a
write that does not fit leaves the bytes that did. -/

namespace SlotScript

/-- Where output goes. -/
structure Sink where
  limit : Option Nat
  written : ByteArray

namespace Sink

/-- A sink that takes everything. -/
def unlimited : Sink := ⟨none, .empty⟩

/-- A sink that takes the first `n` bytes. -/
def upTo (n : Nat) : Sink := ⟨some n, .empty⟩

/-- The answer of a sink that is full. -/
def refusal : String := "sink full"

/-- Writes bytes as far as they fit, and says whether all of them did. -/
def write (s : Sink) (bytes : ByteArray) : Bool × Sink :=
  let ⟨limit, written⟩ := s
  match limit with
  | none => (true, ⟨limit, written ++ bytes⟩)
  | some n =>
    let room := n - written.size
    (bytes.size ≤ room, ⟨limit, written ++ bytes.extract 0 room⟩)

end Sink

/-- A reason why running code stops. -/
inductive RunFault where
  | value (fault : ValueFault)
  | slotOutOfRange (index : Nat)
  | outputRefused
deriving DecidableEq, Repr

/-- The fault as it is shown to the user. -/
def RunFault.message : RunFault → String
  | .value fault => fault.message
  | .slotOutOfRange index => "Slot " ++ index.repr ++ " is out of range."
  | .outputRefused => "Failed write output: " ++ Sink.refusal

/-- A fault with the line of the code that met it, if that is known. -/
structure Failure where
  line : Option Nat
  fault : RunFault
deriving DecidableEq, Repr

namespace Failure

/-- A message about a line, or about a run as a whole. -/
def locate (line : Option Nat) (message : String) : String :=
  match line with
  | some n => lineMark n ++ " " ++ message
  | none => "Runtime Error: " ++ message

/-- The failure as it is shown to the user. -/
def text (f : Failure) : String := locate f.line f.fault.message

end Failure

/-- The slots of a running program and the sink of its output. -/
structure Machine where
  slots : Array Value
  sink : Sink

/-- A step of a running program. -/
abbrev Exec (α : Type) : Type := Attempt Machine Failure α

namespace Machine

/-- A machine with slots that hold nothing yet. -/
def start (slotCount : Nat) (sink : Sink) : Machine := ⟨Array.replicate slotCount .unit, sink⟩

/-- Reads a slot. -/
def load (index : Nat) : Exec Value := fun m =>
  match m.slots[index]? with
  | some v => (.ok v, m)
  | none => (.error ⟨none, .slotOutOfRange index⟩, m)

/-- Writes a slot. -/
def store (index : Nat) (v : Value) : Exec Unit := fun m =>
  if index < m.slots.size then (.ok (), { m with slots := m.slots.setIfInBounds index v })
  else (.error ⟨none, .slotOutOfRange index⟩, m)

/-- Prints a value on a line of its own.  A failure is reported for `line`. -/
def print (line : Option Nat) (v : Value) : Exec Unit := fun m =>
  let ⟨slots, sink⟩ := m
  match sink.write (v.text ++ "\n").toByteArray with
  | (true, sink) => (.ok (), ⟨slots, sink⟩)
  | (false, sink) => (.error ⟨line, .outputRefused⟩, ⟨slots, sink⟩)

end Machine

end SlotScript
