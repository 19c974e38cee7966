import SlotScript.Attempt
import SlotScript.Code.Promotion
import SlotScript.Scope
import SlotScript.Stmt

/-! # Lowering

Statements are lowered one after the other, expressions from left to right.  The
state holds the variables in force, the number of slots given out, and the line
of the last token that was looked at, which code without a token of its own
notes.  It stays as it is when a statement fails: slots given out are not taken
back, a declared name stays declared, and a block is left again in any case. -/

namespace SlotScript

/-- The state of lowering. -/
structure Lowering where
  scope : Scope
  slotCount : Nat
  line : Nat

/-- A step of lowering. -/
abbrev Lower (α : Type) : Type := Attempt Lowering LowerError α

namespace Lowering

/-- The state before the first statement. -/
def start : Lowering := ⟨.empty, 0, 1⟩

/-- Notes the line of a token. -/
def visit (t : Token) : Lower Unit := Attempt.modify fun s => { s with line := t.line }

/-- The line noted last. -/
def currentLine : Lower Nat := return (← Attempt.get).line

/-- A result whose fault is put at a token. -/
def checkAt {α : Type} (t : Token) (r : Except LowerFault α) : Lower α :=
  Attempt.ofExcept (r.mapError (LowerError.atToken t))

/-- The variable that a token names. -/
def resolve (name : Token) : Lower Slot := do
  checkAt name ((← Attempt.get).scope.resolve name.lexeme)

/-- Gives out the next slot. -/
def allocate (name : String) (type : Ty) : Lower Slot := fun s =>
  (.ok ⟨s.slotCount, type, name⟩, { s with slotCount := s.slotCount + 1 })

/-- Declares the variable that a token names. -/
def bindName (name : Token) (slot : Slot) : Lower Unit := fun s =>
  match s.scope.declare slot with
  | .ok scope => (.ok (), { s with scope })
  | .error fault => (.error (.atToken name fault), s)

/-- Runs the inside of a block and gives the slots declared there too.  The
block is left also when its inside fails. -/
def inBlock {α : Type} (inside : Lower α) : Lower (α × List Slot) := fun s =>
  let (result, after) := inside.run { s with scope := s.scope.push }
  let (frame, scope) := after.scope.pop
  (result.map fun a => (a, Frame.sorted (frame.getD [])), { after with scope })

/-- The value by which a variable of a numeric type is stepped. -/
def stepValue? : Ty → Option Value
  | .int => some (.int 1)
  | .long => some (.long 1)
  | .double => some (.double 1.0)
  | _ => none

/-- Lowers a step of a variable.  Behind the variable, its old value is kept in
a temporary slot and yielded. -/
def stepVariable (op target : Token) (isPrefix : Bool) : Lower Code := do
  let slot ← resolve target
  match stepValue? slot.type with
  | none => Attempt.fail (.atToken op (.notNumeric slot.type))
  | some one =>
    let operator := if op.kind = .increment then Arithmetic.add else Arithmetic.subtract
    let stepped := Code.binary (.arithmetic operator) (.loadFrom slot op.line)
      (.ofValue one slot.type op.line) ⟨some slot.type, op.line⟩
    let update := Code.storeTo slot stepped op.line
    if isPrefix then return update
    else
      let temp ← allocate "temp" slot.type
      return .ofBlock [temp]
        [.storeTo temp (.loadFrom slot op.line) op.line, update, .loadFrom temp op.line] op.line

/-- Lowers an operator on one operand. -/
def applyUnary (op : Token) (operand : Code) : Lower Code := do
  let finish (operator : UnaryOp) (operand : Code) : Lower Code :=
    return .unary operator operand ⟨operand.type, ← currentLine⟩
  match op.kind with
  | .minus => finish .negate (← checkAt op operand.asNumeric)
  | .bang => finish .not (← checkAt op operand.asBoolean)
  | .bitNot => finish .complement (← checkAt op operand.asIntegral)
  | _ => Attempt.fail (.atToken op (.unsupportedOperator op.lexeme))

end Lowering

open Lowering

/-- Lowers an expression. -/
def Expr.lower : Expr → Lower Code
  | .literal value => return .ofValue value.value value.type (← currentLine)
  | .grouping inner => inner.lower
  | .var name => do
    visit name
    return .loadFrom (← resolve name) name.line
  | .assign target value => do
    visit target
    let slot ← resolve target
    let code ← value.lower
    return .storeTo slot (← checkAt target (code.asStored slot)) target.line
  | .unary op operand => do
    visit op
    applyUnary op (← operand.lower)
  | .binary left op right => do
    visit op
    let l ← left.lower
    let r ← right.lower
    checkAt op (l.combine op r)
  | .logical left op right => do
    visit op
    let l ← checkAt op (← left.lower).asBoolean
    let r ← checkAt op (← right.lower).asBoolean
    let operator := if op.kind = .or then LogicOp.or else LogicOp.and
    return .logical operator l r ⟨some .bool, ← currentLine⟩
  | .cast target operand => do
    visit target
    checkAt target ((← operand.lower).castTo target.lexeme target.line)
  | .step op target isPrefix => do
    visit op
    stepVariable op target isPrefix

mutual

/-- Lowers a statement. -/
def Stmt.lower : Stmt → Lower Code
  | .expression e => e.lower
  | .print e => do
    let code ← e.lower
    return .print code ⟨none, code.line⟩
  | .declare type name initial => do
    visit name
    let slot ← allocate name.lexeme type
    bindName name slot
    match initial with
    | some e =>
      let code ← e.lower
      return .storeTo slot (← checkAt name (code.asStored slot)) name.line
    | none => return .storeTo slot (.ofValue (.default type) type name.line) name.line
  | .block body => do
    let (codes, slots) ← inBlock (Stmt.lowerAll body)
    let line ← currentLine
    return .ofBlock slots codes ((codes.head?.map Code.line).getD line)
  | .conditional form keyword _ _ =>
    Attempt.fail (.atToken keyword (.unsupportedStatement form.name))

/-- Lowers statements in order, up to the first that fails. -/
def Stmt.lowerAll : List Stmt → Lower (List Code)
  | [] => return []
  | s :: rest => do
    let code ← s.lower
    let codes ← Stmt.lowerAll rest
    return code :: codes

end

/-- Lowers a program to one block that holds the global variables. -/
def lower (program : List Stmt) : Except LowerError Lowered :=
  match (Stmt.lowerAll program).run .start with
  | (.ok codes, s) => .ok ⟨.ofBlock (Frame.sorted s.scope.globals) codes 1, s.slotCount⟩
  | (.error e, _) => .error e

end SlotScript
