import SlotScript.Machine.Run
import SlotScript.Proofs.Attempts

/-! # Moments of a run

`Code.traced` runs code as `Code.run` does and notes on the way what happens: that
a block has given its slots their default values, and that a piece of code has
ended, with its result and the machine it leaves.  The notes of a run stand in
the order in which things happen, so "from then on" is "further down the list".

`Code.traced_run` says that the result is that of `Code.run`.  Nothing about a
run is decided here. -/

namespace SlotScript

/-- Something that happens in a run. -/
inductive Moment where
  /-- A block has given its slots their default values. -/
  | opened (slots : List Slot) (m : Machine)
  /-- Code has ended. -/
  | finished (c : Code) (result : Except Failure Value) (m : Machine)

namespace Moment

/-- The machine at the moment. -/
def machine : Moment → Machine
  | .opened _ m => m
  | .finished _ _ m => m

/-- The slots that are initialised at the moment. -/
def opens : Moment → List Slot
  | .opened slots _ => slots
  | .finished _ _ _ => []

/-- The slots initialised after some moments, when `ready` were so before. -/
def readyAfter (ready : List Slot) (ms : List Moment) : List Slot :=
  ms.foldl (fun ready x => x.opens ++ ready) ready

@[simp] theorem readyAfter_nil (ready : List Slot) : readyAfter ready [] = ready := rfl

@[simp] theorem readyAfter_cons (ready : List Slot) (x : Moment) (ms : List Moment) :
    readyAfter ready (x :: ms) = readyAfter (x.opens ++ ready) ms := rfl

@[simp] theorem readyAfter_append (ready : List Slot) (ms ms' : List Moment) :
    readyAfter ready (ms ++ ms') = readyAfter (readyAfter ready ms) ms' :=
  List.foldl_append

theorem subset_readyAfter (ready : List Slot) (ms : List Moment) : ready ⊆ readyAfter ready ms := by
  induction ms generalizing ready with
  | nil => exact fun _ h => h
  | cons x ms ih => exact fun slot h => ih _ (List.mem_append_right _ h)

end Moment

/-- A run that notes its moments. -/
def Traced (α : Type) : Type := Machine → List Moment × (Except Failure α × Machine)

namespace Traced

variable {α β : Type}

/-- A step without moments of its own. -/
def ofExec (x : Exec α) : Traced α := fun m => ([], x.run m)

/-- Goes on after a success. -/
def andThen (x : Traced α) (f : α → Traced β) : Traced β := fun m =>
  match x m with
  | (ms, .ok a, m) => (ms ++ (f a m).1, (f a m).2)
  | (ms, .error e, m) => (ms, .error e, m)

instance : Monad Traced where
  pure a := ofExec (pure a)
  bind := andThen

/-- Notes that slots are initialised. -/
def openSlots (slots : List Slot) : Traced Unit := fun m => ([.opened slots m], .ok (), m)

/-- Notes that the code `c`, which is run by `x`, has ended. -/
def record (c : Code) (x : Traced Value) : Traced Value := fun m =>
  ((x m).1 ++ [.finished c (x m).2.1 (x m).2.2], (x m).2)

/-- The run without its moments. -/
def erase (x : Traced α) : Exec α := fun m => (x m).2

@[simp] theorem erase_ofExec (x : Exec α) : (ofExec x).erase = x := rfl

@[simp] theorem erase_pure (a : α) : (pure a : Traced α).erase = pure a := rfl

@[simp] theorem erase_openSlots (slots : List Slot) : (openSlots slots).erase = pure () := rfl

@[simp] theorem erase_record (c : Code) (x : Traced Value) : (record c x).erase = x.erase := rfl

@[simp] theorem erase_bind (x : Traced α) (f : α → Traced β) :
    (x >>= f).erase = x.erase >>= fun a => (f a).erase := by
  funext m
  show (andThen x f m).2 = Attempt.andThen x.erase (fun a => (f a).erase) m
  unfold andThen Attempt.andThen erase
  split
  · rename_i h
    rw [h]
  · rename_i h
    rw [h]

end Traced

open Traced

mutual

/-- `Code.run` with its moments. -/
def Code.traced : Code → Traced Value
  | .constant v note => record (.constant v note) (pure v)
  | .load slot note => record (.load slot note) (ofExec (Machine.load slot.index))
  | .store slot value note => record (.store slot value note) do
    let v ← value.traced
    ofExec (Machine.store slot.index v)
    return v
  | .convert operand note => record (.convert operand note) do
    let v ← operand.traced
    match note.type with
    | some target => ofExec (valueAt note.line (v.cast target))
    | none => return v
  | .binary op left right note => record (.binary op left right note) do
    let l ← left.traced
    let r ← right.traced
    ofExec (valueAt note.line (op.onValues l r))
  | .logical .and left right note => record (.logical .and left right note) do
    let l ← left.traced
    if l.isTrue then right.traced else return .bool false
  | .logical .or left right note => record (.logical .or left right note) do
    let l ← left.traced
    if l.isTrue then return .bool true else right.traced
  | .unary op operand note => record (.unary op operand note) do
    let v ← operand.traced
    ofExec (valueAt note.line (op.onValue v))
  | .condition test positive negative note => record (.condition test positive negative note) do
    let b ← test.traced
    if b.isTrue then positive.traced else negative.traced
  | .call builtin arguments note => record (.call builtin arguments note) do
    let vs ← Code.tracedArguments arguments
    ofExec (valueAt note.line (builtin.onValues vs))
  | .print operand note => record (.print operand note) do
    let v ← operand.traced
    ofExec (Machine.print (some note.line) v)
    return .unit
  | .block slots body note => record (.block slots body note) do
    ofExec (Slot.resetAll slots)
    openSlots slots
    Code.tracedBody .unit body

/-- `Code.runArguments` with its moments. -/
def Code.tracedArguments : List Code → Traced (List Value)
  | [] => return []
  | c :: rest => do
    let v ← c.traced
    let vs ← Code.tracedArguments rest
    return v :: vs

/-- `Code.runBody` with its moments. -/
def Code.tracedBody (last : Value) : List Code → Traced Value
  | [] => return last
  | c :: rest => do
    let v ← c.traced
    Code.tracedBody v rest

end

mutual

theorem Code.erase_traced : ∀ c : Code, c.traced.erase = c.run
  | .constant v note => by simp [Code.traced, Code.run]
  | .load slot note => by simp [Code.traced, Code.run]
  | .store slot value note => by simp [Code.traced, Code.run, value.erase_traced]
  | .convert operand note => by
      simp only [Code.traced, Code.run, erase_record, erase_bind, operand.erase_traced]
      cases note.type with
      | some target => rfl
      | none => rfl
  | .binary op left right note => by
      simp [Code.traced, Code.run, left.erase_traced, right.erase_traced]
  | .logical .and left right note => by
      simp only [Code.traced, Code.run, erase_record, erase_bind, left.erase_traced]
      congr 1
      funext l
      cases l.isTrue with
      | true => exact right.erase_traced
      | false => rfl
  | .logical .or left right note => by
      simp only [Code.traced, Code.run, erase_record, erase_bind, left.erase_traced]
      congr 1
      funext l
      cases l.isTrue with
      | true => rfl
      | false => exact right.erase_traced
  | .unary op operand note => by simp [Code.traced, Code.run, operand.erase_traced]
  | .condition test positive negative note => by
      simp only [Code.traced, Code.run, erase_record, erase_bind, test.erase_traced]
      congr 1
      funext b
      cases b.isTrue with
      | true => exact positive.erase_traced
      | false => exact negative.erase_traced
  | .call builtin arguments note => by
      simp [Code.traced, Code.run, Code.erase_tracedArguments arguments]
  | .print operand note => by simp [Code.traced, Code.run, operand.erase_traced]
  | .block slots body note => by
      simp [Code.traced, Code.run, Code.erase_tracedBody .unit body]
      rfl

theorem Code.erase_tracedArguments : ∀ cs : List Code,
    (Code.tracedArguments cs).erase = Code.runArguments cs
  | [] => rfl
  | c :: rest => by
      simp [Code.tracedArguments, Code.runArguments, c.erase_traced,
        Code.erase_tracedArguments rest]

theorem Code.erase_tracedBody : ∀ (last : Value) (cs : List Code),
    (Code.tracedBody last cs).erase = Code.runBody last cs
  | _, [] => rfl
  | _, c :: rest => by
      simp [Code.tracedBody, Code.runBody, c.erase_traced, fun v => Code.erase_tracedBody v rest]

end

/-- The moments of a run. -/
def Code.moments (c : Code) (m : Machine) : List Moment := (c.traced m).1

theorem Code.traced_run (c : Code) (m : Machine) : (c.traced m).2 = c.run.run m :=
  congrFun c.erase_traced m

end SlotScript
