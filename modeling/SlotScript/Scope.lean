import SlotScript.Code.Basic
import SlotScript.Code.Fault

/-! # Scopes

The variables in force at a point of a program: those declared globally, and
those of each block that is open there.  A name means the variable declared
last in the innermost block that declares it. -/

namespace SlotScript

/-- The variables declared in one block, in the order of declaration.  No two
have the same name. -/
abbrev Frame := List Slot

namespace Frame

/-- The variable with a name. -/
def lookup (f : Frame) (name : String) : Option Slot := f.find? (·.name == name)

/-- The variables in the order of their slots; names decide between equal
slots. -/
def sorted (f : Frame) : List Slot :=
  f.mergeSort fun a b => a.index < b.index || (a.index == b.index && a.name ≤ b.name)

end Frame

/-- The global variables and those of the open blocks, innermost first. -/
structure Scope where
  globals : Frame
  blocks : List Frame
deriving Repr

namespace Scope

/-- No variables and no open block. -/
def empty : Scope := ⟨[], []⟩

/-- Opens a block. -/
def push (s : Scope) : Scope := { s with blocks := [] :: s.blocks }

/-- Closes the innermost block and gives its variables.  The globals are never
closed. -/
def pop (s : Scope) : Option Frame × Scope :=
  match s.blocks with
  | f :: rest => (some f, { s with blocks := rest })
  | [] => (none, s)

/-- The frame that declarations go to. -/
def current (s : Scope) : Frame := s.blocks.head?.getD s.globals

/-- Declares a variable in the innermost frame, which must not have its name
yet. -/
def declare (s : Scope) (slot : Slot) : Except LowerFault Scope :=
  match s.current.lookup slot.name with
  | some _ => .error (.duplicateDeclaration slot.name)
  | none =>
    match s.blocks with
    | f :: rest => .ok { s with blocks := (f ++ [slot]) :: rest }
    | [] => .ok { s with globals := s.globals ++ [slot] }

/-- The variable that a name means, looked up from the inside out. -/
def resolve (s : Scope) (name : String) : Except LowerFault Slot :=
  match (s.blocks ++ [s.globals]).findSome? (·.lookup name) with
  | some slot => .ok slot
  | none => .error (.undefinedVariable name)

end Scope

end SlotScript
