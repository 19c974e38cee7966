import SlotScript.Proofs.Lowers
import SlotScript.Machine.Run

/-! # Code with other slots

`Code.mapSlots g` is a tree of code with `g` applied to each of its slots.  Notes stay
as they are, so all that lowering puts around an operand can be put there before or
after (`Code.combine_mapSlots` and the lemmas before it).  Running code looks at the
numbers and types of slots only: if `g` keeps these, it makes no difference
(`Code.run_mapSlots`). -/

namespace SlotScript

/-- The function keeps the number and the type of each slot. -/
def Slot.KeepsPlace (g : Slot → Slot) : Prop :=
  ∀ slot, (g slot).index = slot.index ∧ (g slot).type = slot.type

namespace Code

mutual

/-- The tree with a function applied to its slots. -/
def mapSlots (g : Slot → Slot) : Code → Code
  | .constant v note => .constant v note
  | .load slot note => .load (g slot) note
  | .store slot value note => .store (g slot) (value.mapSlots g) note
  | .convert operand note => .convert (operand.mapSlots g) note
  | .binary op left right note => .binary op (left.mapSlots g) (right.mapSlots g) note
  | .logical op left right note => .logical op (left.mapSlots g) (right.mapSlots g) note
  | .unary op operand note => .unary op (operand.mapSlots g) note
  | .condition test positive negative note =>
    .condition (test.mapSlots g) (positive.mapSlots g) (negative.mapSlots g) note
  | .call builtin arguments note => .call builtin (mapAllSlots g arguments) note
  | .print operand note => .print (operand.mapSlots g) note
  | .block slots body note => .block (slots.map g) (mapAllSlots g body) note

/-- The trees with a function applied to their slots. -/
def mapAllSlots (g : Slot → Slot) : List Code → List Code
  | [] => []
  | c :: rest => c.mapSlots g :: mapAllSlots g rest

end

variable {g : Slot → Slot} {slot : Slot}

theorem mapAllSlots_eq_map (cs : List Code) : mapAllSlots g cs = cs.map (mapSlots g) := by
  induction cs with
  | nil => rfl
  | cons c cs ih => rw [mapAllSlots, ih, List.map_cons]

@[simp] theorem note_mapSlots (c : Code) : (c.mapSlots g).note = c.note := by
  cases c <;> rfl

@[simp] theorem type_mapSlots (c : Code) : (c.mapSlots g).type = c.type := by
  simp [type]

@[simp] theorem line_mapSlots (c : Code) : (c.mapSlots g).line = c.line := by
  simp [line]

/-! ### Lowered code -/

theorem loadFrom_mapSlots (hg : Slot.KeepsPlace g) (n : Nat) :
    (loadFrom slot n).mapSlots g = loadFrom (g slot) n := by
  simp [loadFrom, mapSlots, (hg slot).2]

theorem storeTo_mapSlots (hg : Slot.KeepsPlace g) (c : Code) (n : Nat) :
    (storeTo slot c n).mapSlots g = storeTo (g slot) (c.mapSlots g) n := by
  simp [storeTo, mapSlots, (hg slot).2]

theorem stepSlot_mapSlots (hg : Slot.KeepsPlace g) (op : Token) (one : Value) :
    (stepSlot slot op one).mapSlots g = stepSlot (g slot) op one := by
  simp [stepSlot, storeTo_mapSlots hg, mapSlots, loadFrom_mapSlots hg, ofValue, (hg slot).2]

theorem ofBlock_mapSlots (slots : List Slot) (body : List Code) (n : Nat) :
    (ofBlock slots body n).mapSlots g = ofBlock (slots.map g) (body.map (mapSlots g)) n := by
  have htype : (body.map (mapSlots g)).getLast?.bind Code.type = body.getLast?.bind Code.type := by
    rw [List.getLast?_map]
    cases body.getLast? with
    | none => rfl
    | some c => exact type_mapSlots c
  rw [ofBlock, mapSlots, mapAllSlots_eq_map, ofBlock, htype]

theorem convertTo_mapSlots (c : Code) (t : Ty) :
    (c.mapSlots g).convertTo t = (c.convertTo t).mapSlots g := by
  unfold convertTo
  rw [type_mapSlots, line_mapSlots]
  split
  · rfl
  · rfl

theorem truthNumber_mapSlots (c : Code) : (c.mapSlots g).truthNumber = c.truthNumber.mapSlots g := by
  simp [truthNumber, mapSlots, ofValue]

theorem valueType_mapSlots (c : Code) : (c.mapSlots g).valueType = c.valueType := by
  simp [valueType]

theorem asNumeric_mapSlots (c : Code) :
    (c.mapSlots g).asNumeric = c.asNumeric.map (mapSlots g) := by
  unfold asNumeric
  rw [valueType_mapSlots]
  cases c.valueType with
  | error fault => rfl
  | ok t =>
      simp only [bind, Except.bind, truthNumber_mapSlots]
      split
      · rfl
      · split <;> rfl

theorem asIntegral_mapSlots (c : Code) :
    (c.mapSlots g).asIntegral = c.asIntegral.map (mapSlots g) := by
  unfold asIntegral
  rw [valueType_mapSlots]
  cases c.valueType with
  | error fault => rfl
  | ok t =>
      simp only [bind, Except.bind, truthNumber_mapSlots, convertTo_mapSlots]
      split
      · rfl
      · split
        · rfl
        · split <;> rfl

theorem asBoolean_mapSlots (c : Code) :
    (c.mapSlots g).asBoolean = c.asBoolean.map (mapSlots g) := by
  unfold asBoolean
  rw [valueType_mapSlots, line_mapSlots]
  cases c.valueType with
  | error fault => rfl
  | ok t =>
      simp only [bind, Except.bind]
      split
      · rfl
      · split <;> rfl

theorem raise_mapSlots (left right : Code) (n : Nat) :
    (left.mapSlots g).raise (right.mapSlots g) n = (left.raise right n).map (mapSlots g) := by
  unfold raise
  rw [valueType_mapSlots, valueType_mapSlots, asNumeric_mapSlots, asNumeric_mapSlots]
  cases left.valueType with
  | error fault => rfl
  | ok l =>
      cases right.valueType with
      | error fault => rfl
      | ok r =>
          simp only [bind, Except.bind, convertTo_mapSlots]
          split
          · cases l.promoteIntegral r <;> rfl
          · cases left.asNumeric with
            | error fault => rfl
            | ok x =>
                cases right.asNumeric with
                | error fault => rfl
                | ok y => simp only [Except.map, convertTo_mapSlots]; rfl

theorem combine_mapSlots (left : Code) (op : Token) (right : Code) :
    (left.mapSlots g).combine op (right.mapSlots g) =
      (left.combine op right).map (mapSlots g) := by
  unfold combine
  rw [valueType_mapSlots, valueType_mapSlots, raise_mapSlots]
  cases left.valueType with
  | error fault => rfl
  | ok l =>
      cases right.valueType with
      | error fault => rfl
      | ok r =>
          simp only [bind, Except.bind, convertTo_mapSlots]
          split
          · rfl
          · split
            · rfl
            · split
              · rfl
              · rename_i operator _
                cases operator.promote l r with
                | error fault => rfl
                | ok t =>
                    simp only
                    split <;> rfl

theorem castTo_mapSlots (c : Code) (name : String) (n : Nat) :
    (c.mapSlots g).castTo name n = (c.castTo name n).map (mapSlots g) := by
  unfold castTo
  split
  · rfl
  · rw [valueType_mapSlots]
    cases c.valueType with
    | error fault => rfl
    | ok source =>
        simp only [bind, Except.bind]
        split
        · rfl
        · split <;> rfl

/-! ### Running -/

theorem resetAll_map (hg : Slot.KeepsPlace g) (slots : List Slot) :
    Slot.resetAll (slots.map g) = Slot.resetAll slots := by
  induction slots with
  | nil => rfl
  | cons slot rest ih =>
      rw [List.map_cons, Slot.resetAll, Slot.resetAll, ih, (hg slot).1, (hg slot).2]

mutual

/-- The run of code depends on the numbers and types of its slots only. -/
theorem run_mapSlots (hg : Slot.KeepsPlace g) : ∀ c : Code, (c.mapSlots g).run = c.run
  | .constant v note => rfl
  | .load slot note => by rw [mapSlots, run, run, (hg slot).1]
  | .store slot value note => by
      rw [mapSlots, run, run, run_mapSlots hg value, (hg slot).1]
  | .convert operand note => by rw [mapSlots, run, run, run_mapSlots hg operand]
  | .binary op left right note => by
      rw [mapSlots, run, run, run_mapSlots hg left, run_mapSlots hg right]
  | .logical .and left right note => by
      rw [mapSlots, run, run, run_mapSlots hg left, run_mapSlots hg right]
  | .logical .or left right note => by
      rw [mapSlots, run, run, run_mapSlots hg left, run_mapSlots hg right]
  | .unary op operand note => by rw [mapSlots, run, run, run_mapSlots hg operand]
  | .condition test positive negative note => by
      rw [mapSlots, run, run, run_mapSlots hg test, run_mapSlots hg positive,
        run_mapSlots hg negative]
  | .call builtin arguments note => by
      rw [mapSlots, run, run, runArguments_mapAllSlots hg arguments]
  | .print operand note => by rw [mapSlots, run, run, run_mapSlots hg operand]
  | .block slots body note => by
      rw [mapSlots, run, run, resetAll_map hg, runBody_mapAllSlots hg .unit body]

theorem runArguments_mapAllSlots (hg : Slot.KeepsPlace g) :
    ∀ cs : List Code, runArguments (mapAllSlots g cs) = runArguments cs
  | [] => rfl
  | c :: rest => by
      rw [mapAllSlots, runArguments, runArguments, run_mapSlots hg c,
        runArguments_mapAllSlots hg rest]

theorem runBody_mapAllSlots (hg : Slot.KeepsPlace g) (last : Value) :
    ∀ cs : List Code, runBody last (mapAllSlots g cs) = runBody last cs
  | [] => rfl
  | c :: rest => by
      rw [mapAllSlots, runBody, runBody, run_mapSlots hg c]
      congr 1
      funext v
      exact runBody_mapAllSlots hg v rest

end

end Code

/-- A program behaves the same if its slots are renamed. -/
theorem Lowered.run_mapSlots {g : Slot → Slot} (hg : Slot.KeepsPlace g) (p : Lowered)
    (sink : Sink) : Lowered.run ⟨p.root.mapSlots g, p.slotCount⟩ sink = p.run sink := by
  unfold Lowered.run
  rw [Code.run_mapSlots hg, Code.type_mapSlots]

end SlotScript
