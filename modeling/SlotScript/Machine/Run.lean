import SlotScript.Code.Basic
import SlotScript.Machine.Basic
import SlotScript.Value.Cast
import SlotScript.Value.Operation
import SlotScript.Value.Power

/-! # Running code

`Code.run` gives the value of a tree.  Operands run from left to right; a
logical operator runs its right operand only if the left one leaves the answer
open.  A failing operation is reported for the line of its node. -/

namespace SlotScript

/-- A result of an operation on values, whose fault belongs to a line. -/
def valueAt {α : Type} (line : Nat) (r : Except ValueFault α) : Exec α :=
  Attempt.ofExcept (r.mapError fun fault => ⟨some line, .value fault⟩)

/-- Only the value `true` counts as true. -/
def Value.isTrue : Value → Bool
  | .bool b => b
  | _ => false

/-- Gives slots the default values of their types. -/
def Slot.resetAll : List Slot → Exec Unit
  | [] => return ()
  | slot :: rest => do
    Machine.store slot.index (.default slot.type)
    Slot.resetAll rest

mutual

/-- Runs code and gives its value. -/
def Code.run : Code → Exec Value
  | .constant v _ => return v
  | .load slot _ => Machine.load slot.index
  | .store slot value _ => do
    let v ← value.run
    Machine.store slot.index v
    return v
  | .convert operand note => do
    let v ← operand.run
    match note.type with
    | some target => valueAt note.line (v.cast target)
    | none => return v
  | .binary op left right note => do
    let l ← left.run
    let r ← right.run
    valueAt note.line (op.onValues l r)
  | .logical .and left right _ => do
    if (← left.run).isTrue then right.run else return .bool false
  | .logical .or left right _ => do
    if (← left.run).isTrue then return .bool true else right.run
  | .unary op operand note => do
    let v ← operand.run
    valueAt note.line (op.onValue v)
  | .condition test positive negative _ => do
    if (← test.run).isTrue then positive.run else negative.run
  | .call builtin arguments note => do
    let vs ← Code.runArguments arguments
    valueAt note.line (builtin.onValues vs)
  | .print operand note => do
    let v ← operand.run
    Machine.print (some note.line) v
    return .unit
  | .block slots body _ => do
    Slot.resetAll slots
    Code.runBody .unit body

/-- Runs code for each of several values. -/
def Code.runArguments : List Code → Exec (List Value)
  | [] => return []
  | c :: rest => do
    let v ← c.run
    let vs ← Code.runArguments rest
    return v :: vs

/-- Runs code in sequence and gives the last value, or `last` if there is no
code. -/
def Code.runBody (last : Value) : List Code → Exec Value
  | [] => return last
  | c :: rest => do
    let v ← c.run
    Code.runBody v rest

end

/-- Runs a lowered program and prints the value of its last statement, if that
has one. -/
def Lowered.run (p : Lowered) (sink : Sink) : Except Failure Unit × Sink :=
  let whole : Exec Unit := do
    let v ← p.root.run
    if p.root.type.isSome then Machine.print none v
  let (result, m) := whole.run (.start p.slotCount sink)
  (result, m.sink)

end SlotScript
