import SlotScript.Value.Basic

/-! # Lowered code

A program is lowered to a tree in which every name is a numbered slot and every
conversion is a node.  Each node notes its static type, if it has a value, and a
source line. -/

namespace SlotScript

/-- The place of a variable or of a temporary value. -/
structure Slot where
  index : Nat
  type : Ty
  name : String
deriving DecidableEq, Repr

/-- What a node notes about itself. -/
structure Code.Note where
  type : Option Ty
  line : Nat
deriving DecidableEq, Repr

/-- A tree of lowered code. -/
inductive Code where
  | constant (value : Value) (note : Code.Note)
  | load (slot : Slot) (note : Code.Note)
  /-- Stores a value and yields it. -/
  | store (slot : Slot) (value : Code) (note : Code.Note)
  /-- Casts a value to the type of the node. -/
  | convert (operand : Code) (note : Code.Note)
  | binary (op : BinaryOp) (left right : Code) (note : Code.Note)
  | logical (op : LogicOp) (left right : Code) (note : Code.Note)
  | unary (op : UnaryOp) (operand : Code) (note : Code.Note)
  | condition (test positive negative : Code) (note : Code.Note)
  | call (builtin : Builtin) (arguments : List Code) (note : Code.Note)
  | print (operand : Code) (note : Code.Note)
  /-- Gives its slots their default values, then runs its body. -/
  | block (slots : List Slot) (body : List Code) (note : Code.Note)
deriving BEq, Repr

namespace Code

/-- What the node notes about itself. -/
def note : Code → Note
  | .constant _ n | .load _ n | .store _ _ n | .convert _ n | .binary _ _ _ n | .logical _ _ _ n
  | .unary _ _ n | .condition _ _ _ n | .call _ _ n | .print _ n | .block _ _ n => n

/-- The static type of the node's value, if it has one. -/
def type (c : Code) : Option Ty := c.note.type

/-- The source line of the node. -/
def line (c : Code) : Nat := c.note.line

/-- A constant of a type. -/
def ofValue (v : Value) (t : Ty) (line : Nat) : Code := .constant v ⟨some t, line⟩

/-- Reads a slot. -/
def loadFrom (slot : Slot) (line : Nat) : Code := .load slot ⟨some slot.type, line⟩

/-- Writes a slot. -/
def storeTo (slot : Slot) (value : Code) (line : Nat) : Code := .store slot value ⟨some slot.type, line⟩

/-- The code with its value turned into type `t`; unchanged when it has that
type. -/
def convertTo (c : Code) (t : Ty) : Code :=
  if c.type = some t then c else .convert c ⟨some t, c.line⟩

/-- A block, whose value is that of its last part. -/
def ofBlock (slots : List Slot) (body : List Code) (line : Nat) : Code :=
  .block slots body ⟨body.getLast?.bind Code.type, line⟩

end Code

/-- A lowered program: its code and the number of slots it needs. -/
structure Lowered where
  root : Code
  slotCount : Nat
deriving BEq, Repr

end SlotScript
